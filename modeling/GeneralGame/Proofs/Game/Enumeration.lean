import GeneralGame.Nim
import GeneralGame.Proofs.Game.Legal

/-!
The joint moves of a state, one after the other. They are enumerated over the places in the lists of
legal moves: every combination of places is taken once, in lexicographic order, so that the first
role changes slowest. If a role has no list or an empty one, the first such role is reported and
nothing is enumerated. The combinations are counted before the first one is made; if there is no room
for all of them, the count breaks down and there is not a single one.
-/
namespace GeneralGame

/-- The roles of a game stand at their places. -/
theorem RoleId.map_index_all (count : Nat) :
    (RoleId.all count).map RoleId.index = List.range (count % 256) := by
  rw [RoleId.all, List.map_map]
  refine (List.map_congr_left fun i hi => ?_).trans (List.map_id _)
  have := List.mem_range.mp hi
  exact RoleId.index_ofIndex (by omega)

namespace Game

variable {α : Type} {lists : List (List α)} {as : List α} {places : List Nat}

/-! ### Places in order -/

/-- All places in the lists, those in the last list changing fastest. -/
def allPlaces (lists : List (List α)) : List (List Nat) :=
  product (lists.map fun as => List.range as.length)

theorem mem_allPlaces : places ∈ allPlaces lists ↔ Places lists places := by
  rw [allPlaces, mem_product, List.forall₂_map_left_iff]
  simp only [List.mem_range]
  exact ⟨List.Forall₂.flip, List.Forall₂.flip⟩

/-- A product of lists that ascend ascends lexicographically. -/
theorem pairwise_product {R : α → α → Prop} (h : ∀ as ∈ lists, as.Pairwise R) :
    (product lists).Pairwise (List.Lex R) := by
  induction lists with
  | nil => exact List.pairwise_singleton _ _
  | cons as lists ih =>
      obtain ⟨has, hlists⟩ := List.forall_mem_cons.mp h
      rw [product, List.pairwise_flatMap]
      refine ⟨fun a _ => List.pairwise_map.mpr ((ih hlists).imp fun hlex => .cons hlex), ?_⟩
      refine has.imp fun hab xs hxs ys hys => ?_
      obtain ⟨_, -, rfl⟩ := List.mem_map.mp hxs
      obtain ⟨_, -, rfl⟩ := List.mem_map.mp hys
      exact .rel hab

theorem pairwise_allPlaces : (allPlaces lists).Pairwise (List.Lex (· < ·)) := by
  refine pairwise_product fun as has => ?_
  obtain ⟨_, -, rfl⟩ := List.mem_map.mp has
  exact List.pairwise_lt_range

theorem map_getElem?_range (as : List α) : (List.range as.length).map (as[·]?) = as.map some := by
  refine List.ext_getElem? fun i => ?_
  by_cases hi : i < as.length
  · simp [hi]
  · simp [hi]

/-- The entries at all places are the product. -/
theorem map_pickAt_allPlaces (lists : List (List α)) :
    (allPlaces lists).map (pickAt lists) = (product lists).map some := by
  induction lists with
  | nil => rfl
  | cons as lists ih =>
      let prepend (entry : Option α) : List (Option (List α)) :=
        ((allPlaces lists).map (pickAt lists)).map fun rest =>
          entry.bind fun a => rest.map (a :: ·)
      have hplaces : (allPlaces (as :: lists)).map (pickAt (as :: lists)) =
          (List.range as.length).flatMap fun i => prepend as[i]? := by
        simp [allPlaces, product, prepend, List.map_flatMap, Function.comp_def, pickAt,
          Option.map_eq_bind]
      have hentries : (product (as :: lists)).map some = as.flatMap fun a => prepend (some a) := by
        simp [product, prepend, ih, List.map_flatMap, Function.comp_def]
      rw [hplaces, hentries, ← List.flatMap_map, map_getElem?_range, List.flatMap_map]

/-- The choices from the lists are enumerated: every combination of places once, in lexicographic
order. -/
structure Enumerates (lists choices : List (List α)) : Prop where
  ordered : ∃ order : List (List Nat), (∀ places, places ∈ order ↔ Places lists places) ∧
    order.Pairwise (List.Lex (· < ·)) ∧ order.map (pickAt lists) = choices.map some
  length : choices.length = (lists.map List.length).prod

theorem enumerates_product (lists : List (List α)) : Enumerates lists (product lists) :=
  ⟨⟨allPlaces lists, fun _ => mem_allPlaces, pairwise_allPlaces, map_pickAt_allPlaces lists⟩,
    length_product lists⟩

/-! ### Joint moves -/

variable {g : Game} {s : State} {r : RoleId} {e : GameError}

/-- What comes of the roles' entries. If each has moves, the joint moves are enumerated from them as
long as there is room for all; otherwise the first that fails or is empty decides. -/
inductive Lists (entry : RoleId → Except GameError (List Move)) (roles : List RoleId) :
    Except Fault (List JointMove) → Prop
  | listed {moves : List (List Move)} {joints : List JointMove}
      (hmoves : List.Forall₂ (fun r ms => entry r = .ok ms ∧ ms ≠ []) roles moves)
      (hroom : (moves.map List.length).prod * jointMoveBytes < 2 ^ 63)
      (hjoints : Enumerates moves (joints.map JointMove.moves)) : Lists entry roles (.ok joints)
  | tooMany {moves : List (List Move)}
      (hmoves : List.Forall₂ (fun r ms => entry r = .ok ms ∧ ms ≠ []) roles moves)
      (hroom : 2 ^ 63 ≤ (moves.map List.length).prod * jointMoveBytes) :
      Lists entry roles (.error .panic)
  | refused {before after : List RoleId} {r : RoleId} {e : GameError}
      (hroles : roles = before ++ r :: after)
      (hbefore : ∀ r ∈ before, ∃ ms, entry r = .ok ms ∧ ms ≠ [])
      (hentry : entry r = .error e ∨ entry r = .ok [] ∧ e = .noLegalMoves r) :
      Lists entry roles (.error (.error e))

/-- The roles' entries, each of them asked for moves. -/
theorem lists_of_mapM {entry f : RoleId → Except GameError (List Move)}
    (hok : ∀ r ms, f r = .ok ms ↔ entry r = .ok ms ∧ ms ≠ [])
    (herror : ∀ r e, f r = .error e →
      entry r = .error e ∨ entry r = .ok [] ∧ e = .noLegalMoves r) :
    Lists entry (RoleId.all g.roleCount) (g.jointMovesOf f) := by
  cases hmoves : (RoleId.all g.roleCount).mapM f with
  | ok moves =>
      have hentries : List.Forall₂ (fun r ms => entry r = .ok ms ∧ ms ≠ [])
          (RoleId.all g.roleCount) moves := (mapM_eq_ok_iff.mp hmoves).imp fun r ms => (hok r ms).mp
      rw [jointMovesOf_eq (fun r ms h => ((hok r ms).mp h).2) hmoves]
      split
      · rename_i hfits
        have hmk : ((product moves).map JointMove.mk).map JointMove.moves = product moves := by
          rw [List.map_map]
          exact List.map_id _
        refine .listed hentries hfits ?_
        rw [hmk]
        exact enumerates_product moves
      · rename_i hfits
        exact .tooMany hentries (Nat.not_lt.mp hfits)
  | error e =>
      rw [jointMovesOf_eq_error hmoves]
      obtain ⟨before, r, after, hroles, hbefore, hr⟩ := exists_of_mapM_eq_error hmoves
      refine .refused hroles (fun r hr => ?_) (herror r e hr)
      obtain ⟨ms, hms⟩ := hbefore r hr
      exact ⟨ms, (hok r ms).mp hms⟩

/-- The joint moves are the product of the legal moves, enumerated in lexicographic order of their
places, or the error of the first role without any. So are those with one role's move given, which
need not be legal. The roles are asked in order, all of them up to 255. All this holds as long as
there is room for the joint moves, and exactly if there is none the enumeration breaks down. -/
theorem jointMoves_enumerated (g : Game) (s : State) :
    (RoleId.all g.roleCount).map RoleId.index = List.range (g.roleCount % 256) ∧
      Lists (g.legal s) (RoleId.all g.roleCount) (g.jointMoves s) ∧
      ∀ role m, Lists (fun r => if r = role then .ok [m] else g.legal s r)
        (RoleId.all g.roleCount) (g.jointMovesWith s role m) := by
  refine ⟨RoleId.map_index_all g.roleCount, ?_, fun role m => ?_⟩
  · exact lists_of_mapM (fun r ms => options_eq_ok) fun r e => options_eq_error.mp
  · refine lists_of_mapM (fun r ms => ?_) fun r e h => ?_
    · rw [pinned]
      split
      · constructor
        · intro h
          cases h
          exact ⟨rfl, List.cons_ne_nil m []⟩
        · exact And.left
      · exact options_eq_ok
    · rw [pinned] at h
      split at h
      · cases h
      · rename_i hne
        simpa only [hne, if_false] using options_eq_error.mp h

theorem jointMoves_enumerated_nim :
    ∃ m, Nim.machine 2 = .ok m ∧
      Lists (m.toGame.legal m.initial) (RoleId.all 2) (m.toGame.jointMoves m.initial) ∧
      m.toGame.jointMoves m.initial =
        .ok [⟨[Nim.take1, .noop]⟩, ⟨[Nim.take2, .noop]⟩] := by
  have hnim : ∃ m, Nim.machine 2 = .ok m ∧ m.toGame.roleCount = 2 ∧
      m.toGame.jointMoves m.initial = .ok [⟨[Nim.take1, .noop]⟩, ⟨[Nim.take2, .noop]⟩] := by
    apply exists_of_any_toOption
    decide +kernel
  obtain ⟨m, hm, hroles, hjoints⟩ := hnim
  obtain ⟨-, hlists, -⟩ := jointMoves_enumerated m.toGame m.initial
  rw [hroles] at hlists
  exact ⟨m, hm, hlists, hjoints⟩

end Game

/-! ### A crowd -/

namespace Crowd

def left : Move := ⟨"left"⟩

def right : Move := ⟨"right"⟩

/-- Sixty-four players may go left or right for ever. They share the proposition that says so, and
the one of their goal. -/
def net : Net where
  roles := List.replicate 64 "player"
  components := #[⟨.proposition, [], some "init"⟩, ⟨.constant true, [], none⟩,
    ⟨.constant false, [], none⟩, ⟨.proposition, [1], some "legal"⟩,
    ⟨.proposition, [1], some "goal"⟩, ⟨.proposition, [2], some "terminal"⟩]
  init := 0
  bases := #[]
  inputs := .ofRoles 64 fun _ => .ofList []
  legals := .ofRoles 64 fun _ => [(left, 3), (right, 3)]
  goals := .ofRoles 64 fun _ => [(100, 4)]
  terminal := 5

theorem exists_machine :
    ∃ m, Machine.ofNet net = .ok m ∧ m.toGame.roleCount = 64 ∧
      (∀ r ∈ RoleId.all 64, m.toGame.legal m.initial r = .ok [left, right]) ∧
      m.toGame.jointMoves m.initial = .error .panic ∧
      m.toGame.jointMovesWith m.initial (.ofIndex 0) left = .error .panic := by
  apply exists_of_any_toOption
  decide +kernel

/-- Each player of the crowd has two moves, and yet there is no list of their joint moves. -/
theorem jointMoves_panics_crowd :
    ∃ m, Machine.ofNet net = .ok m ∧
      (∀ r ∈ RoleId.all m.toGame.roleCount, m.toGame.legal m.initial r = .ok [left, right]) ∧
      m.toGame.jointMoves m.initial = .error .panic := by
  obtain ⟨m, hm, hroles, hlegal, hpanic, -⟩ := exists_machine
  exact ⟨m, hm, hroles ▸ hlegal, hpanic⟩

end Crowd

end GeneralGame
