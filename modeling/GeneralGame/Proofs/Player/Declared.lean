import GeneralGame.Nim
import GeneralGame.Proofs.Circuit.Faithful
import GeneralGame.Proofs.Player.Decision
import GeneralGame.Proofs.Search.Tries

/-!
Decisions on nets that are declared in full: every legal move of a role is also an input of the role,
unless it is to do nothing. On such a net no joint move that a search tries is refused. What a
decision can fail for is a role that does not exist, a role without legal moves, or goals that are
not exactly one.
-/
namespace GeneralGame

open Search

namespace Net

/-- Every declared legal move can be made. -/
def LegalsKnown (net : Net) : Prop :=
  ∀ r ∈ RoleId.all net.roleCount, ∀ entry ∈ net.legalsOf r, net.Knows (r, entry.1)

instance (net : Net) (entry : RoleId × Move) : Decidable (net.Knows entry) :=
  inferInstanceAs (Decidable (_ ∨ _))

instance (net : Net) : Decidable net.LegalsKnown :=
  inferInstanceAs (Decidable (∀ r ∈ _, _))

/-- What a decision for a role can fail with: the role does not exist, one of the roles has no legal
move, or the role's goal is not defined by exactly one proposition. -/
inductive Declines (net : Net) (role : RoleId) : GameError → Prop
  | unknownRole (h : net.roleCount ≤ role.index) :
      Declines net role (.unknownRole role.index net.roleCount)
  | noLegalMoves {r : RoleId} (h : r.index < net.roleCount) : Declines net role (.noLegalMoves r)
  | goalDefinition {held : Nat} (h : role.index < net.roleCount) (hheld : held ≠ 1) :
      Declines net role (.goalDefinition role held)

end Net

theorem Player.history_of_error {p : Player} {fuel : Nat} {role : RoleId} {s : State} {instant : Int}
    {clock : Clock} {e : GameError} (hmoves : p.game.moves s role = .error e) :
    p.history fuel role s instant clock = [] := by
  simp only [history, hmoves]

theorem Outcome.map_eq_fault {α β : Type} {f : α → β} {o : Outcome α} {e : Fault}
    (h : o.map f = .fault e) : o = .fault e := by
  cases o with
  | done a => cases h
  | cut => cases h
  | fault e' =>
      cases h
      rfl

namespace Machine

variable {net : Net} {m : Machine} {s : State} {r role : RoleId} {a : Move}

theorem role_lt_of_legal {moves : List Move} (h : m.legal s r = .ok moves) :
    r.index < m.net.roleCount := by
  obtain ⟨_, hrole, -⟩ := exists_of_bind_eq_ok h
  exact (of_ite_eq_ok hrole).1

/-- A legal move is a declared one. -/
theorem exists_declared {moves : List Move} (h : m.legal s r = .ok moves) (ha : a ∈ moves) :
    ∃ entry ∈ m.net.legalsOf r, entry.1 = a := by
  obtain ⟨_, -, h⟩ := exists_of_bind_eq_ok h
  cases h
  obtain ⟨entry, hentry, rfl⟩ := List.mem_map.mp ha
  exact ⟨entry, List.mem_of_mem_filter hentry, rfl⟩

/-- A joint move can be made if every role has an entry that the net knows. -/
theorem exists_next_of_known (hcount : m.net.roleCount ≤ maxRoles) {j : JointMove}
    (hj : m.toGame.Known (fun r a => m.net.Knows (r, a)) j) (s : State) :
    ∃ t, m.next s j = .ok t := by
  obtain ⟨hlength, hget⟩ := RoleId.forall₂_all_iff.mp hj
  have hlt : m.net.roleCount < 256 := Nat.lt_of_le_of_lt hcount (by decide)
  have hsize : j.size = m.net.roleCount := hlength.trans (Nat.mod_eq_of_lt hlt)
  have hknown : ∀ entry ∈ j.entries, m.net.Knows entry := by
    rintro ⟨r, a⟩ hentry
    have ha := (JointMove.mem_entries (by omega)).mp hentry
    have hentry := hget r.index a ha
    rwa [r.ofIndex_index] at hentry
  obtain ⟨values, hvalues⟩ :=
    Net.exists_markJointMove hsize hknown (m.net.markState s m.net.noValues)
  refine ⟨m.net.readNext (m.net.propagate m.order values), ?_⟩
  rw [next, evaluate, hvalues]
  rfl

/-- The game of a net that is declared in full honors what its roles know. -/
theorem honors (h : m.net.WellFormed) (hlegals : m.net.LegalsKnown)
    (hrole : role.index < m.net.roleCount) :
    m.toGame.Honors role (fun r a => m.net.Knows (r, a)) (m.net.Declines role) := by
  have hcount : m.net.roleCount < 256 := Nat.lt_of_le_of_lt h.roleCount_le (by decide)
  have hmem {r : RoleId} : r ∈ RoleId.all m.toGame.roleCount ↔ r.index < m.net.roleCount := by
    rw [RoleId.mem_all]
    exact Nat.mod_eq_of_lt hcount ▸ Iff.rfl
  have hfails := fails_of_wellFormed h
  constructor
  case role_mem => exact hmem.mpr hrole
  case legal =>
    rintro s r a ⟨moves, hlegal, ha⟩
    obtain ⟨entry, hentry, rfl⟩ := exists_declared hlegal ha
    exact hlegals r (hmem.mpr (role_lt_of_legal hlegal)) entry hentry
  case noop => exact fun r => .inr rfl
  case next => exact fun s j hj => exists_next_of_known h.roleCount_le hj s
  case unlisted =>
    intro s r e hr he
    obtain ⟨hle, -⟩ := hfails.legal s r e he
    exact absurd (hmem.mp hr) (Nat.not_lt.mpr hle)
  case noMoves => exact fun hr _ => .noLegalMoves (hmem.mp hr)
  case goal =>
    intro s e he
    rcases hfails.goal s role e he with ⟨hle, -⟩ | ⟨-, held, hheld, rfl⟩
    · exact absurd hrole (Nat.not_lt.mpr hle)
    · exact .goalDefinition hrole hheld

end Machine

/-- Where the net of a machine declares its legal moves in full, no joint move that a search makes is
refused, whatever the strategy and the state, however the children are selected and the playouts
drawn, and whenever the time is up. A decision fails only if its role does not exist, a role has no
legal moves, or the role's goal is not defined. -/
theorem Player.select_never_misplays {net : Net} {m : Machine} (hm : Machine.ofNet net = .ok m)
    (hlegals : net.LegalsKnown) {p : Player} (hgame : p.game = m.toGame)
    (hplayout : p.playout = .random) (fuel : Nat) (role : RoleId) (s : State) (instant : Int)
    (clock : Clock) :
    (∀ e ∈ p.history fuel role s instant clock, ∀ t j, e.1.transition? = some (t, j) →
      ∃ u, m.next t j = .ok u) ∧
    ∀ e, (p.select fuel role s instant clock).outcome = .fault (.error e) →
      net.Declines role e := by
  obtain ⟨rfl, hnet, -⟩ := Machine.ofNet_eq_ok hm
  cases hmoves : p.game.moves s role with
  | error e =>
      rw [select_of_error hmoves, history_of_error hmoves]
      refine ⟨List.forall_mem_nil _, ?_⟩
      rintro _ ⟨⟩
      rw [hgame] at hmoves
      rcases Game.moves_eq_error.mp hmoves with hlegal | ⟨hlegal, rfl⟩
      · obtain ⟨hle, rfl⟩ := (Machine.fails_of_wellFormed hnet).legal s role e hlegal
        exact .unknownRole hle
      · exact .noLegalMoves (Machine.role_lt_of_legal hlegal)
  | ok ms =>
      obtain ⟨moves, h⟩ := ms
      by_cases hlength : moves.length = 1
      · obtain ⟨us, houtcome⟩ := select_of_single fuel instant clock hmoves hlength
        rw [houtcome, history_of_single hmoves hlength]
        exact ⟨List.forall_mem_nil _, nofun⟩
      · obtain ⟨us, houtcome⟩ := select_of_search fuel instant clock hmoves hlength
        rw [houtcome, history_of_search hmoves hlength]
        have hlegal := Game.moves_eq_ok.mp hmoves
        have hrole : role.index < m.net.roleCount := by
          rw [hgame] at hlegal
          exact Machine.role_lt_of_legal hlegal
        have honors : p.game.Honors role (fun r a => m.net.Knows (r, a)) (m.net.Declines role) :=
          hgame ▸ Machine.honors hnet hlegals hrole
        have htries := honors.tries_search (b := p.brief role) rfl hplayout p.strategy fuel s h
          fun a ha => honors.legal ⟨moves, hlegal, ha⟩
        obtain ⟨htried, hfails⟩ :=
          Game.run_of_tries htries (p.deadline instant) (p.searchWorld clock.read.2)
        refine ⟨fun e he t j hnext => ?_, fun e he => hfails e ?_⟩
        · obtain ⟨u, hu⟩ := honors.next t ((htried e he).known hnext)
          rw [hgame] at hu
          exact ⟨u, hu⟩
        · exact Outcome.map_eq_fault he

/-- White makes joint moves while it decides on its first move by minimax search, and has nothing to
decide on where neither role has its turn. -/
theorem Player.select_never_misplays_nim :
    ∃ m p, Nim.machine 2 = .ok m ∧ p = Player.new m.toGame .minimax .standard .ucb .random ∧
      (∃ e ∈ p.history 9 Nim.white m.initial 100000 ⟨0, 0⟩, ∃ t j u,
        e.1.transition? = some (t, j) ∧ m.next t j = .ok u) ∧
      (p.select 9 Nim.white .empty 100000 ⟨0, 0⟩).outcome =
        .fault (.error (.noLegalMoves Nim.white)) ∧
      m.net.Declines Nim.white (.noLegalMoves Nim.white) := by
  have hnim : ∃ m, Nim.machine 2 = .ok m ∧ m.net.LegalsKnown ∧
      m.toGame.legal .empty Nim.white = .ok [] ∧
      ((Player.new m.toGame .minimax .standard .ucb .random).history 9 Nim.white m.initial 100000
        ⟨0, 0⟩).any (fun e => e.1.transition?.isSome) = true := by
    apply exists_of_any_toOption
    decide +kernel
  obtain ⟨m, hm, hlegals, hwaits, hmade⟩ := hnim
  obtain ⟨net, -, hnet⟩ := exists_of_bind_eq_ok hm
  obtain ⟨rfl, -⟩ := Machine.ofNet_eq_ok hnet
  obtain ⟨e, he, hsome⟩ := List.any_eq_true.mp hmade
  obtain ⟨⟨t, j⟩, htransition⟩ := Option.isSome_iff_exists.mp hsome
  have hdecides (s : State) := select_never_misplays hnet hlegals
    (p := .new m.toGame .minimax .standard .ucb .random) rfl rfl 9 Nim.white s 100000 ⟨0, 0⟩
  obtain ⟨u, hu⟩ := (hdecides m.initial).1 e he t j htransition
  have hfails : ((Player.new m.toGame .minimax .standard .ucb .random).select 9 Nim.white .empty
      100000 ⟨0, 0⟩).outcome = .fault (.error (.noLegalMoves Nim.white)) :=
    select_of_error (Game.moves_eq_error.mpr (.inr ⟨hwaits, rfl⟩))
  exact ⟨m, _, hm, rfl, ⟨e, he, t, j, u, htransition, hu⟩, hfails, (hdecides .empty).2 _ hfails⟩

end GeneralGame
