import GeneralGame.Circuit.Draft
import GeneralGame.Circuit.Machine
import GeneralGame.Proofs.Search.Finite

/-!
Waiting in vain. With three roles minimax lets roles wait that may not, so it can come to states that
no legal play leads to. There its search may go deeper than the game, or never end.
-/
namespace GeneralGame

open Search

variable {g : Game} {b : Brief} {s : State}

namespace Game

/-- From every world, the undisturbed search runs out of fuel. -/
def RunsOut (g : Game) {α : Type} (p : Search α) : Prop :=
  ∀ w, ∃ v, g.searchUndisturbed p w = (.fault .outOfFuel, v)

variable {α β : Type} {p : Search α}

theorem runsOut_bind (h : g.RunsOut p) (f : α → Search β) : g.RunsOut (p >>= f) := by
  intro w
  obtain ⟨v, hrun⟩ := h w
  exact ⟨v, Program.run_bind_of_fault hrun f⟩

theorem runsOut_of_returns {f : α → Search β} {P : α → Prop} (hp : g.Returns p P)
    (hf : ∀ a, P a → g.RunsOut (f a)) : g.RunsOut (p >>= f) := by
  intro w
  obtain ⟨a, v, hrun, ha⟩ := hp w
  rw [searchUndisturbed_bind_of_done hrun]
  exact hf a ha v

theorem runsOut_attempt (h : g.RunsOut p) : g.RunsOut p.attempt := by
  intro w
  obtain ⟨v, hrun⟩ := h w
  exact ⟨v, Program.run_attempt_of_fault hrun⟩

end Game

namespace Minimax

/-- The first reply is the first move of the first opponent. -/
theorem returns_replies {m x : Move} {r : RoleId} {opponents : List RoleId}
    (hopponents : (RoleId.all b.roleCount).filter (· ≠ b.role) = r :: opponents)
    (hmoves : ∀ q ∈ opponents, ∃ ms, g.moves s q = .ok ms) {ms : { ms : List Move // ms ≠ [] }}
    (hms : g.moves s r = .ok ms) (hx : ms.val.head? = some x) :
    g.Returns (replies b s m) fun joints => joints.head? = some ((b.placeholder m).set r x) := by
  obtain ⟨rest, hrest⟩ := List.head?_eq_some_iff.mp hx
  rw [replies, hopponents, List.mapM_cons, bind_assoc, bind_assoc]
  refine Game.returns_bind (Game.returns_query (Game.answer_moves.mpr hms)) ?_
  rintro _ rfl
  rw [pure_bind, bind_assoc, hrest]
  have hothers : g.Completes 0 (opponents.mapM fun q => do
      let ms ← query (.moves s q)
      return ms.val.map ((b.placeholder m).set q)) (List.Forall₂ (fun _ _ => True) opponents) := by
    apply Game.completes_mapM
    intro q hq
    obtain ⟨ms, hms⟩ := hmoves q hq
    exact Game.completes_bind (Game.completes_query (Game.answer_moves.mpr hms)) fun _ _ =>
      Game.completes_pure trivial
  refine Game.returns_bind hothers.returns fun lists _ => ?_
  exact Game.returns_pure rfl

variable {m : Move} {j : JointMove} {t : State}

theorem moveScore_runsOut {score : State → Search Nat}
    (hreplies : g.Returns (replies b s m) fun joints => joints.head? = some j)
    (hnext : g.next s j = .ok t) (hscore : g.RunsOut (score t)) :
    g.RunsOut (moveScore b score s m) := by
  refine Game.runsOut_of_returns Game.returns_checkpoint fun _ _ => ?_
  refine Game.runsOut_of_returns hreplies fun joints hjoints => ?_
  obtain ⟨rest, rfl⟩ := List.head?_eq_some_iff.mp hjoints
  rw [least]
  refine Game.runsOut_of_returns (Game.returns_next hnext) ?_
  rintro _ rfl
  exact Game.runsOut_bind hscore _

/-- Where the first reply to the role's first move leads back, minimax goes round in circles. -/
theorem stateScore_runsOut (hon : g.isTerminal s = false) {ms : { ms : List Move // ms ≠ [] }}
    (hms : g.moves s b.role = .ok ms) (hm : ms.val.head? = some m)
    (hreplies : g.Returns (replies b s m) fun joints => joints.head? = some j)
    (hnext : g.next s j = .ok s) (fuel depth : Nat) : g.RunsOut (stateScore b fuel depth s) := by
  induction fuel generalizing depth with
  | zero => exact fun w => ⟨_, rfl⟩
  | succ fuel ih =>
      obtain ⟨rest, hrest⟩ := List.head?_eq_some_iff.mp hm
      rw [stateScore]
      refine Game.runsOut_of_returns Game.returns_checkpoint fun _ _ => ?_
      refine Game.runsOut_of_returns (Game.returns_note _) fun _ _ => ?_
      refine Game.runsOut_of_returns (Game.returns_query (q := .isTerminal s) rfl) ?_
      rintro _ rfl
      rw [if_neg (by rw [hon]; exact Bool.false_ne_true)]
      refine Game.runsOut_of_returns (Game.returns_query (Game.answer_moves.mpr hms)) ?_
      rintro _ rfl
      rw [hrest, greatest]
      exact Game.runsOut_bind (moveScore_runsOut hreplies hnext (ih _)) _

theorem search_runsOut (hon : g.isTerminal s = false) {ms : { ms : List Move // ms ≠ [] }}
    (hms : g.moves s b.role = .ok ms) (hm : ms.val.head? = some m)
    (hreplies : g.Returns (replies b s m) fun joints => joints.head? = some j)
    (hnext : g.next s j = .ok s) (fuel : Nat) : g.RunsOut (search b fuel s ms.val ms.property) := by
  obtain ⟨rest, hrest⟩ := List.head?_eq_some_iff.mp hm
  have hscore := stateScore_runsOut hon hms hm hreplies hnext fuel 1
  rw [search, chooseMove]
  generalize (⟨ms.val.head ms.property, 0⟩ : Incumbent Nat) = best
  rw [hrest, chooseFrom]
  exact Game.runsOut_bind (Game.runsOut_attempt (moveScore_runsOut hreplies hnext hscore)) _

end Minimax

/-! ### A game of three -/

namespace Handshake

/-- The caller only looks on. The game is over as soon as both others go, who can do nothing else.
If one of them went alone, it would be over one turn later, and never in the state where it is
stuck. -/
def net : Except GameError Net :=
  Draft.toNet <| .ofDeclarations ["caller", "left", "right"] [
    .base "over", .base "late", .base "stuck",
    .input (.ofIndex 0) ⟨"call"⟩, .input (.ofIndex 0) ⟨"wait"⟩,
    .input (.ofIndex 1) ⟨"go"⟩, .input (.ofIndex 2) ⟨"go"⟩, .constant true,
    .and [6, 7], .or [9, 2], .next 1 10,
    .not 9, .not 0, .not 3, .and [12, 13, 14], .next 2 15, .next 3 3,
    .legal (.ofIndex 0) ⟨"call"⟩, .connect 8 18, .legal (.ofIndex 0) ⟨"wait"⟩, .connect 8 19,
    .legal (.ofIndex 1) ⟨"go"⟩, .connect 8 20, .legal (.ofIndex 2) ⟨"go"⟩, .connect 8 21,
    .goal (.ofIndex 0) 50, .connect 8 22, .goal (.ofIndex 1) 50, .connect 8 23,
    .goal (.ofIndex 2) 50, .connect 8 24, .terminal, .connect 1 25]

def machine : Except GameError Machine := do Machine.ofNet (← net)

def caller : RoleId := .ofIndex 0

def call : Move := ⟨"call"⟩

def wait : Move := ⟨"wait"⟩

def go : Move := ⟨"go"⟩

def stuck : State := .ofFacts [2]

def brief : Brief := ⟨3, caller, .standard, .ucb, .random⟩

/-- In the state every legal joint move ends the game, and no query fails before or after it. -/
def LastTurn (g : Game) (s : State) : Prop :=
  g.isTerminal s = false ∧ g.legal s caller = .ok [call, wait] ∧
    g.legal s (.ofIndex 1) = .ok [go] ∧ g.legal s (.ofIndex 2) = .ok [go] ∧
    (∀ r ∈ RoleId.all 3, g.goal s r = .ok 50) ∧
    g.jointMoves s = .ok [⟨[call, go, go]⟩, ⟨[wait, go, go]⟩] ∧
    ∀ j ∈ [JointMove.mk [call, go, go], ⟨[wait, go, go]⟩], ∃ t ∈ (g.next s j).toOption,
      g.isTerminal t = true ∧ ∀ r ∈ RoleId.all 3, g.goal t r = .ok 50 ∧ (g.legal t r).isOk = true

instance (g : Game) (s : State) : Decidable (LastTurn g s) :=
  inferInstanceAs (Decidable (_ ∧ _ ∧ _ ∧ _ ∧ _ ∧ _ ∧ _))

theorem endsWithin_of_lastTurn {g : Game} {s : State} (hcount : g.roleCount = 3)
    (h : LastTurn g s) : g.EndsWithin caller (g.CanPlay · caller) g.IsLegal 1 s := by
  obtain ⟨hon, hcaller, hleft, hright, -, hjoints, hlast⟩ := h
  have hend : ∀ j, g.IsLegal s j → ∃ t, g.next s j = .ok t ∧ g.isTerminal t = true ∧
      g.goal t caller = .ok 50 := by
    intro j hj
    obtain ⟨t, ht, hover, hgoals⟩ := hlast j ((Game.mem_jointMoves hjoints).mpr hj)
    exact ⟨t, toOption_eq_some.mp ht, hover, (hgoals caller (by decide)).1⟩
  have hmoves : ∀ r ∈ RoleId.all g.roleCount, ∃ ms, g.moves s r = .ok ms ∧ ms.val.length ≤ 2 := by
    rw [hcount]
    intro r hr
    have hroles : r = caller ∨ r = .ofIndex 1 ∨ r = .ofIndex 2 := by
      simpa [RoleId.all, List.range_succ, caller] using hr
    rcases hroles with rfl | rfl | rfl
    · exact ⟨⟨[call, wait], List.cons_ne_nil _ _⟩, Game.moves_eq_ok.mpr hcaller, Nat.le_refl 2⟩
    · exact ⟨⟨[go], List.cons_ne_nil _ _⟩, Game.moves_eq_ok.mpr hleft, Nat.le_succ 1⟩
    · exact ⟨⟨[go], List.cons_ne_nil _ _⟩, Game.moves_eq_ok.mpr hright, Nat.le_succ 1⟩
  have hroom : 2 ^ (g.roleCount % 256) * Game.jointMoveBytes < 2 ^ 63 := by
    rw [hcount]
    decide
  refine .going hon (fun r hr => (hmoves r hr).imp fun _ => And.left)
    (fun m _ => Game.exists_jointMovesWith 2 Nat.two_pos hroom hmoves caller m)
    (fun j hj => (hend j hj).imp fun t ht => ht.1) fun j t hj ht => ?_
  obtain ⟨t', ht', hover, hgoal⟩ := hend j hj
  rw [ht] at ht'
  cases ht'
  exact .ended hover hgoal

/-- What minimax does on its first move and deeper down, in the initial state and where the game is
stuck. -/
def Misled (m : Machine) : Prop :=
  m.toGame.roleCount = 3 ∧ LastTurn m.toGame m.initial ∧ LastTurn m.toGame stuck ∧
    m.toGame.next stuck ⟨[call, go, .noop]⟩ = .ok stuck ∧
    (m.toGame.search ⟨1, 0⟩ (Strategy.minimax.search brief 3 m.initial [call, wait] (by decide))
      (.new ⟨0, 0⟩ (.ofSeed 42))).2.stats.maxDepth = 2

instance (m : Machine) : Decidable (Misled m) :=
  inferInstanceAs (Decidable (_ ∧ _ ∧ _ ∧ _ ∧ _))

theorem exists_machine : ∃ m, machine = .ok m ∧ Misled m := by
  have hmisled : (machine.toOption.any fun m => decide (Misled m)) = true := by decide +kernel
  obtain ⟨m, hm, h⟩ := (Option.any_eq_true _ _).mp hmisled
  exact ⟨m, toOption_eq_some.mp hm, of_decide_eq_true h⟩

/-- In both states every legal joint move ends the game. But from the initial one minimax looks two
plies ahead, and where the game is stuck it never comes to an end. -/
theorem minimax_leaves_legal_play :
    ∃ m, machine = .ok m ∧
      (LastTurn m.toGame m.initial ∧
        m.toGame.EndsWithin caller (m.toGame.CanPlay · caller) m.toGame.IsLegal 1 m.initial ∧
        (m.toGame.search ⟨1, 0⟩ (Strategy.minimax.search brief 3 m.initial [call, wait] (by decide))
          (.new ⟨0, 0⟩ (.ofSeed 42))).2.stats.maxDepth = 2) ∧
      LastTurn m.toGame stuck ∧
        m.toGame.EndsWithin caller (m.toGame.CanPlay · caller) m.toGame.IsLegal 1 stuck ∧
        ∀ fuel, ∃ w', m.toGame.search ⟨1, 0⟩
          (Strategy.minimax.search brief fuel stuck [call, wait] (by decide))
          (.new ⟨0, 0⟩ (.ofSeed 42)) = (.fault .outOfFuel, w') := by
  obtain ⟨m, hm, hcount, hinitial, hstuck, hnext, hdepth⟩ := exists_machine
  have hturn := hstuck
  obtain ⟨hon, hcaller, hleft, hright, -⟩ := hturn
  refine ⟨m, hm, ⟨hinitial, endsWithin_of_lastTurn hcount hinitial, hdepth⟩, hstuck,
    endsWithin_of_lastTurn hcount hstuck, fun fuel => ?_⟩
  have hmoves : m.toGame.moves stuck caller = .ok ⟨[call, wait], nofun⟩ :=
    Game.moves_eq_ok.mpr hcaller
  have hopponents : (RoleId.all brief.roleCount).filter (· ≠ brief.role) =
      [.ofIndex 1, .ofIndex 2] := rfl
  have hfirst : m.toGame.moves stuck (.ofIndex 1) = .ok ⟨[go], nofun⟩ := Game.moves_eq_ok.mpr hleft
  have hothers : ∀ r ∈ [RoleId.ofIndex 2], ∃ ms, m.toGame.moves stuck r = .ok ms := by
    intro r hr
    rw [List.mem_singleton.mp hr]
    exact ⟨⟨[go], List.cons_ne_nil _ _⟩, Game.moves_eq_ok.mpr hright⟩
  have hreplies := Minimax.returns_replies (m := call) hopponents hothers hfirst rfl
  exact Minimax.search_runsOut (b := brief) hon hmoves rfl hreplies hnext fuel
    (.new ⟨0, 0⟩ (.ofSeed 42))

end Handshake

end GeneralGame
