import GeneralGame.Proofs.Circuit.Accepted
import GeneralGame.Proofs.Circuit.Ranked

/-!
Look-ups by place. The check and the ordering take entries out of tables by their places, where the
definitions have defaults for entries that do not exist. The versions here have none and give no
outcome at all without the entry, in the order in which the look-ups are made. They always have the
outcome of the definitions: the parts of the check that come first keep every later look-up in range.
-/
namespace GeneralGame

/-- Code with look-ups by place: `none` where an entry does not exist. -/
abbrev Lookups := ExceptT GameError Option

namespace Lookups

variable {α β : Type} {x : Lookups α} {y : Except GameError α}

/-- The entry at a place. -/
def entry (found : Option α) : Lookups α := ExceptT.mk (found.map .ok)

/-- An outcome that takes no look-up. -/
def outcome (y : Except GameError α) : Lookups α := ExceptT.mk (some y)

/-- All entries exist, and the outcome is `y`. -/
def InRange (x : Lookups α) (y : Except GameError α) : Prop := x.run = some y

theorem inRange_outcome (y : Except GameError α) : InRange (outcome y) y := rfl

theorem inRange_pure (a : α) : InRange (pure a) (.ok a) := rfl

theorem inRange_throw (e : GameError) : InRange (throw e : Lookups α) (.error e) := rfl

theorem inRange_entry {f : α → Lookups β} {y : Except GameError β} {found : Option α} {a : α}
    (h : found = some a) (hf : InRange (f a) y) : InRange (entry found >>= f) y := by
  rw [h]
  exact hf

/-- What comes later may rely on what came before. -/
theorem inRange_bind {f : α → Lookups β} {g : α → Except GameError β} (hx : InRange x y)
    (hf : ∀ a, y = .ok a → InRange (f a) (g a)) : InRange (x >>= f) (y >>= g) := by
  have hrun : (x >>= f).run = x.run.bind (ExceptT.bindCont f) := rfl
  rw [InRange, hrun, hx, Option.bind_some]
  cases y with
  | error e => rfl
  | ok a => exact hf a rfl

theorem inRange_forM {f : α → Lookups Unit} {g : α → Except GameError Unit} {xs : List α}
    (h : ∀ x ∈ xs, InRange (f x) (g x)) : InRange (xs.forM f) (xs.forM g) := by
  induction xs with
  | nil => rfl
  | cons x xs ih =>
      obtain ⟨hx, hxs⟩ := List.forall_mem_cons.mp h
      rw [List.forM_eq_forM, List.forM_eq_forM, List.forM_cons, List.forM_cons]
      exact inRange_bind hx fun _ _ => ih hxs

end Lookups

theorem forM_flatMap {m : Type → Type} [Monad m] [LawfulMonad m] {α β : Type} (xs : List α)
    (g : α → List β) (f : β → m Unit) :
    forM (xs.flatMap g) f = xs.forM fun x => (g x).forM f := by
  induction xs with
  | nil => rfl
  | cons x xs ih =>
      rw [List.flatMap_cons, List.forM_append, ih]
      rfl

theorem allM_eq_some {α : Type} {p : α → Option Bool} {q : α → Bool} {xs : List α}
    (h : ∀ x ∈ xs, p x = some (q x)) : xs.allM p = some (xs.all q) := by
  induction xs with
  | nil => rfl
  | cons x xs ih =>
      obtain ⟨hx, hxs⟩ := List.forall_mem_cons.mp h
      rw [List.allM, hx, List.all_cons]
      cases q x with
      | true => exact ih hxs
      | false => rfl

open Lookups

namespace Net

variable {net : Net} {id : ComponentId} {c : Component}

/-! ### The check -/

/-- The last of `count` places. -/
def lastPlace? (count : Nat) : Option Nat := if count = 0 then none else some (count - 1)

def checkTableSizeAt (net : Net) (size : Nat) : Lookups Unit :=
  if size = net.roleCount then pure ()
  else do
    let last ← entry (lastPlace? (max size net.roleCount))
    throw (.unknownRole last net.roleCount)

def checkIds (net : Net) (ids : List ComponentId) : Lookups Unit :=
  outcome (ids.forM net.checkReference)

def checkRoleReferencesAt (net : Net) (r : RoleId) : Lookups Unit := do
  let table ← entry (net.inputs.get? r)
  net.checkIds table.ids
  let legals ← entry (net.legals.get? r)
  net.checkIds (legals.map Prod.snd)
  let goals ← entry (net.goals.get? r)
  net.checkIds (goals.map Prod.snd)

def checkReferencesAt (net : Net) : Lookups Unit := do
  net.checkIds (net.init :: net.terminal :: net.bases.toList)
  (RoleId.all net.roleCount).forM net.checkRoleReferencesAt
  net.checkIds (net.components.toList.flatMap Component.inputs)

/-- Marks components by their places. -/
def markAt (net : Net) (ids : List ComponentId) : Option (Array Bool) :=
  ids.foldlM (fun marks id => if id < marks.size then some (marks.setIfInBounds id true) else none)
    (Array.replicate net.size false)

def checkFeedAt (net : Net) (id : ComponentId) (c : Component) : Lookups Unit :=
  match c.inputs.head? with
  | none => pure ()
  | some i => do
    let source ← entry (net.component? i)
    if source.kind = .transition then pure () else throw (.invalidBaseInput id source.kind)

/-- Only a proposition is looked up among the independent components. -/
def checkComponentAt (net : Net) (isBase isIndependent : Array Bool) (id : ComponentId)
    (c : Component) : Lookups Unit := do
  if ← entry isBase[id]? then
    net.checkFeedAt id c
    outcome (checkInputCount id c .atMostOne)
  else
    let independent ← if c.kind = .proposition then entry isIndependent[id]? else pure false
    outcome (checkInputCount id c (expectedInputs c.kind independent))

def checkComponentsAt (net : Net) : Lookups Unit := do
  let isBase ← entry (net.markAt net.bases.toList)
  net.components.toList.zipIdx.forM fun (c, id) =>
    net.checkComponentAt isBase net.independentMask id c

def checkRoleAt (net : Net) (role : String) (r : RoleId) : Lookups Unit := do
  let goals ← entry (net.goals.get? r)
  outcome (checkGoals role goals)
  let legals ← entry (net.legals.get? r)
  outcome (checkLegals role legals)

def checkAt (net : Net) : Lookups Unit := do
  outcome (checkRoleCount net.roles)
  net.checkTableSizeAt net.inputs.size
  net.checkTableSizeAt net.legals.size
  net.checkTableSizeAt net.goals.size
  net.checkReferencesAt
  net.checkComponentsAt
  net.roles.zipIdx.forM fun (role, i) => net.checkRoleAt role (.ofIndex i)

theorem inRange_checkTableSizeAt (hcount : 1 ≤ net.roleCount) (size : Nat) :
    InRange (net.checkTableSizeAt size) (net.checkTableSize size) := by
  rw [checkTableSizeAt, checkTableSize]
  split
  · exact inRange_pure ()
  · have hlast : lastPlace? (max size net.roleCount) = some (max size net.roleCount - 1) :=
      if_neg (by omega)
    exact inRange_entry hlast (inRange_throw _)

/-- A role of the game has an entry in every table of the right size. -/
theorem exists_entry {α : Type} {t : RoleTable α} {r : RoleId} (hsize : t.size = net.roleCount)
    (hr : r ∈ RoleId.all net.roleCount) : ∃ a, t.get? r = some a := by
  have hlt : r.index < t.entries.size := by
    change t.entries.size = _ at hsize
    have hindex := RoleId.mem_all.mp hr
    omega
  exact ⟨_, Array.getElem?_eq_getElem hlt⟩

theorem inRange_checkRoleReferencesAt (hinputs : net.inputs.size = net.roleCount)
    (hlegals : net.legals.size = net.roleCount) (hgoals : net.goals.size = net.roleCount)
    {r : RoleId} (hr : r ∈ RoleId.all net.roleCount) :
    InRange (net.checkRoleReferencesAt r)
      ((((net.inputs.get? r).elim [] MoveTable.ids) ++ (net.legalsOf r).map Prod.snd ++
        (net.goalsOf r).map Prod.snd).forM net.checkReference) := by
  obtain ⟨table, htable⟩ := exists_entry hinputs hr
  obtain ⟨legals, hlegal⟩ := exists_entry hlegals hr
  obtain ⟨goals, hgoal⟩ := exists_entry hgoals hr
  rw [List.forM_eq_forM, List.forM_append, List.forM_append, bind_assoc, legalsOf, goalsOf, htable,
    hlegal, hgoal]
  apply inRange_entry htable
  refine inRange_bind (inRange_outcome _) fun _ _ => ?_
  apply inRange_entry hlegal
  refine inRange_bind (inRange_outcome _) fun _ _ => ?_
  exact inRange_entry hgoal (inRange_outcome _)

/-- All tables have an entry for each role. -/
theorem inRange_checkReferencesAt (hinputs : net.inputs.size = net.roleCount)
    (hlegals : net.legals.size = net.roleCount) (hgoals : net.goals.size = net.roleCount) :
    InRange net.checkReferencesAt (net.references.forM net.checkReference) := by
  rw [references, List.forM_eq_forM, List.forM_append, List.forM_append, bind_assoc, forM_flatMap]
  refine inRange_bind (inRange_outcome _) fun _ _ => ?_
  refine inRange_bind (inRange_forM fun r hr => ?_) fun _ _ => inRange_outcome _
  exact inRange_checkRoleReferencesAt hinputs hlegals hgoals hr

theorem markAt_eq {ids : List ComponentId} (h : ∀ id ∈ ids, id < net.size) :
    net.markAt ids = some (net.mark ids) := by
  have hfold : ∀ marks : Array Bool, marks.size = net.size →
      ids.foldlM (fun marks id =>
        if id < marks.size then some (marks.setIfInBounds id true) else none) marks =
        some (ids.foldl (fun marks id => marks.setIfInBounds id true) marks) := by
    induction ids with
    | nil => exact fun _ _ => rfl
    | cons id ids ih =>
        intro marks hsize
        obtain ⟨hid, hids⟩ := List.forall_mem_cons.mp h
        rw [List.foldlM_cons, if_pos (hsize ▸ hid)]
        apply ih hids
        rw [Array.size_setIfInBounds, hsize]
  exact hfold _ Array.size_replicate

theorem mem_references_of_input {i : ComponentId} (hc : net.component? id = some c)
    (hi : i ∈ c.inputs) : i ∈ net.references := by
  have hmem : c ∈ net.components.toList := Array.mem_toList_iff.mpr (Array.mem_of_getElem? hc)
  exact List.mem_append_right _ (List.mem_flatMap.mpr ⟨c, hmem, hi⟩)

theorem inRange_checkFeedAt (hinputs : ∀ i ∈ c.inputs, i < net.size) :
    InRange (net.checkFeedAt id c) (net.checkFeed id c) := by
  rw [checkFeedAt, checkFeed]
  cases hhead : c.inputs.head? with
  | none => exact inRange_pure ()
  | some i =>
      have hlt := hinputs i (List.mem_of_head? hhead)
      have hsource : net.component? i = some net.components[i] := Array.getElem?_eq_getElem hlt
      simp only [Option.bind_some, hsource]
      apply inRange_entry rfl
      split
      · exact inRange_pure ()
      · exact inRange_throw _

theorem exists_mark {marks : Array Bool} (h : id < marks.size) :
    ∃ v, marks[id]? = some v ∧ marks.getD id false = v := by
  refine ⟨marks[id], Array.getElem?_eq_getElem h, ?_⟩
  rw [Array.getD_eq_getD_getElem?, Array.getElem?_eq_getElem h, Option.getD_some]

theorem inRange_checkComponentAt {isBase isIndependent : Array Bool} (hbase : id < isBase.size)
    (hindependent : id < isIndependent.size) (hinputs : ∀ i ∈ c.inputs, i < net.size) :
    InRange (net.checkComponentAt isBase isIndependent id c)
      (net.checkComponent isBase isIndependent id c) := by
  obtain ⟨base, hbase, hisBase⟩ := exists_mark hbase
  obtain ⟨independent, hindependent, hisIndependent⟩ := exists_mark hindependent
  rw [checkComponent, hisBase, hisIndependent]
  apply inRange_entry hbase
  cases base with
  | true => exact inRange_bind (inRange_checkFeedAt hinputs) fun _ _ => inRange_outcome _
  | false =>
      by_cases hkind : c.kind = .proposition
      · simp only [hkind, if_true, Bool.false_eq_true, if_false]
        exact inRange_entry hindependent (inRange_outcome _)
      · simp only [hkind, Bool.false_eq_true, if_false]
        have hexpected : expectedInputs c.kind false = expectedInputs c.kind independent := by
          cases hc : c.kind <;> first | rfl | exact absurd hc hkind
        rw [← hexpected]
        exact inRange_outcome _

theorem inRange_checkComponentsAt (h : ∀ id ∈ net.references, id < net.size) :
    InRange net.checkComponentsAt net.checkComponents := by
  have hbases : ∀ id ∈ net.bases.toList, id < net.size := fun id hid =>
    h id (by simp [references, hid])
  apply inRange_entry (markAt_eq hbases)
  apply inRange_forM
  rintro ⟨c, id⟩ hmem
  rw [List.mk_mem_zipIdx_iff_getElem?, Array.getElem?_toList] at hmem
  have hlt : id < net.size := (Array.getElem?_eq_some_iff.mp hmem).1
  apply inRange_checkComponentAt
  · rwa [size_mark]
  · rwa [independentMask, size_mark]
  · exact fun i hi => h i (mem_references_of_input hmem hi)

theorem inRange_checkRoleAt {r : RoleId} {role : String} (hlegals : net.legals.size = net.roleCount)
    (hgoals : net.goals.size = net.roleCount) (hr : r ∈ RoleId.all net.roleCount) :
    InRange (net.checkRoleAt role r) (net.checkRole role r) := by
  obtain ⟨goals, hgoal⟩ := exists_entry hgoals hr
  obtain ⟨legals, hlegal⟩ := exists_entry hlegals hr
  rw [checkRole, goalsOf, legalsOf, hgoal, hlegal]
  apply inRange_entry hgoal
  refine inRange_bind (inRange_outcome _) fun _ _ => ?_
  exact inRange_entry hlegal (inRange_outcome _)

/-- The check looks up nothing that does not exist, whatever the net is: the number of roles is
checked before the tables, the tables before what they refer to, and this before the components. -/
theorem inRange_checkAt (net : Net) : InRange net.checkAt net.check := by
  refine inRange_bind (inRange_outcome _) fun _ hroles => ?_
  obtain ⟨hpositive, hle⟩ := checkRoleCount_eq_ok_iff.mp hroles
  refine inRange_bind (inRange_checkTableSizeAt hpositive _) fun _ hinputs => ?_
  refine inRange_bind (inRange_checkTableSizeAt hpositive _) fun _ hlegals => ?_
  refine inRange_bind (inRange_checkTableSizeAt hpositive _) fun _ hgoals => ?_
  rw [checkTableSize_eq_ok_iff] at hinputs hlegals hgoals
  refine inRange_bind (inRange_checkReferencesAt hinputs hlegals hgoals) fun _ hreferences => ?_
  rw [checkReferences_eq_ok_iff] at hreferences
  refine inRange_bind (inRange_checkComponentsAt hreferences) fun _ _ => ?_
  apply inRange_forM
  rintro ⟨role, i⟩ hmem
  rw [List.mk_mem_zipIdx_iff_getElem?] at hmem
  have hlt : i < net.roleCount := (List.getElem?_eq_some_iff.mp hmem).1
  apply inRange_checkRoleAt hlegals hgoals
  change net.roleCount ≤ maxRoles at hle
  unfold maxRoles at hle
  rw [RoleId.mem_all, RoleId.index_ofIndex (by omega)]
  omega

/-! ### The ordering -/

namespace Schedule

def inputsReadyAt (net : Net) (ready : Array Bool) (id : ComponentId) : Option Bool :=
  match net.component? id with
  | none => some false
  | some c => c.inputs.allM fun i => ready[i]?

def visitAt (net : Net) (o : Schedule) (id : ComponentId) : Option Schedule := do
  if ← inputsReadyAt net o.ready id then
    if id < o.ready.size then
      some { o with ready := o.ready.setIfInBounds id true, ordered := o.ordered.push id }
    else none
  else some { o with waiting := o.waiting.push id }

def passAt (net : Net) (o : Schedule) : Option Schedule :=
  o.waiting.toList.foldlM (visitAt net) { o with waiting := #[] }

/-- Passes until nothing waits or one orders nothing. Nothing comes of it where they go on for more
than `fuel` passes. -/
def settleAt (net : Net) : (fuel : Nat) → Schedule → Lookups (List ComponentId)
  | 0, _ => entry none
  | fuel + 1, o =>
    if o.waiting.isEmpty then pure o.ordered.toList
    else do
      let o' ← entry (o.passAt net)
      if o'.ordered.size = o.ordered.size then
        let first ← entry o'.waiting[0]?
        throw (.cyclicDependency o'.waiting.size (net.label first))
      else settleAt net fuel o'

/-- The order, if nothing waits any more. -/
def result (net : Net) (o : Schedule) : Except GameError (List ComponentId) :=
  match o.waiting[0]? with
  | none => .ok o.ordered.toList
  | some first => .error (.cyclicDependency o.waiting.size (net.label first))

end Schedule

def orderAt (net : Net) : Lookups (List ComponentId) :=
  Schedule.settleAt net (net.size + 1) (.start net)

namespace Schedule

variable {o : Schedule} {left : List ComponentId}

theorem inputsReadyAt_eq {ready : Array Bool} (h : ∀ id ∈ net.references, id < net.size)
    (hsize : ready.size = net.size) (id : ComponentId) :
    inputsReadyAt net ready id = some (inputsReady net ready id) := by
  rw [inputsReadyAt, inputsReady]
  cases hc : net.component? id with
  | none => rfl
  | some c =>
      apply allM_eq_some
      intro i hi
      have hlt : i < ready.size := hsize ▸ h i (mem_references_of_input hc hi)
      obtain ⟨v, hv, hready⟩ := exists_mark hlt
      rw [hv, hready]

theorem foldlM_visitAt (h : ∀ id ∈ net.references, id < net.size) (hvalid : Valid net left o) :
    left.foldlM (visitAt net) o = some (left.foldl (visit net) o) := by
  induction left generalizing o with
  | nil => rfl
  | cons id left ih =>
      have hlt : id < o.ready.size := (hvalid.new id List.mem_cons_self).1
      have hvisit : visitAt net o id = some (visit net o id) := by
        rw [visitAt, visit, inputsReadyAt_eq h hvalid.size_ready, if_pos hlt, Option.bind_eq_bind,
          Option.bind_some]
        split <;> rfl
      rw [List.foldlM_cons, hvisit]
      exact ih (valid_visit hvalid)

theorem passAt_eq (h : ∀ id ∈ net.references, id < net.size) (hvalid : Valid net [] o) :
    o.passAt net = some (o.pass net) := by
  rw [passAt, pass, ← Array.foldl_toList]
  apply foldlM_visitAt h
  have hnil : o.waiting.toList ++ [] = [] ++ o.waiting.toList := List.append_nil _
  exact ⟨hvalid.ready, hvalid.follows, hnil ▸ hvalid.new, hnil ▸ hvalid.nodup, hnil ▸ hvalid.total⟩

theorem foldl_visit_of_stuck (h : ∀ id ∈ left, inputsReady net o.ready id = false) :
    left.foldl (visit net) o = { o with waiting := (o.waiting.toList ++ left).toArray } := by
  induction left generalizing o with
  | nil => rw [List.foldl_nil, List.append_nil, Array.toArray_toList]
  | cons id left ih =>
      obtain ⟨hid, hleft⟩ := List.forall_mem_cons.mp h
      have hvisit : visit net o id = { o with waiting := o.waiting.push id } :=
        if_neg (by rw [hid]; exact Bool.false_ne_true)
      rw [List.foldl_cons, hvisit, ih (o := { o with waiting := o.waiting.push id }) hleft,
        Array.toList_push, List.append_assoc]
      rfl

/-- A pass that orders nothing changes nothing. -/
theorem pass_of_stuck (h : IsStuck net o) : o.pass net = o := by
  rw [pass, ← Array.foldl_toList, foldl_visit_of_stuck (o := { o with waiting := #[] }) h]
  rfl

theorem settle_of_stuck (h : IsStuck net o) (passes : Nat) : settle net passes o = o := by
  cases passes with
  | zero => rfl
  | succ passes => rw [settle, pass_of_stuck h, if_neg (Nat.lt_irrefl _)]

/-- The passes come to an end, with the outcome of those that are only counted. The induction is on
the fuel; every pass that goes on leaves less waiting. -/
theorem inRange_settleAt (h : ∀ id ∈ net.references, id < net.size) {fuel passes : Nat}
    (hvalid : Valid net [] o) (hfuel : o.waiting.size < fuel) (hpasses : o.waiting.size ≤ passes) :
    InRange (settleAt net fuel o) ((settle net passes o).result net) := by
  induction fuel generalizing passes o with
  | zero => cases hfuel
  | succ fuel ih =>
      rw [settleAt]
      cases hfirst : o.waiting[0]? with
      | none =>
          have hempty : o.waiting = #[] := by
            rw [← Array.size_eq_zero_iff]
            exact Nat.le_zero.mp (Array.getElem?_eq_none_iff.mp hfirst)
          have hstuck : IsStuck net o := fun id hid => by
            rw [hempty] at hid
            cases hid
          rw [settle_of_stuck hstuck, result, hfirst, hempty]
          exact inRange_pure _
      | some first =>
          obtain ⟨hpositive, -⟩ := Array.getElem?_eq_some_iff.mp hfirst
          have hnonempty : ¬ o.waiting.isEmpty = true := by
            rw [Array.isEmpty_iff_size_eq_zero]
            omega
          rw [if_neg hnonempty]
          apply inRange_entry (passAt_eq h hvalid)
          have htotal := hvalid.total
          have htotal' := (valid_pass hvalid).total
          rw [List.nil_append, Array.length_toList] at htotal htotal'
          by_cases hlt : (o.pass net).waiting.size < o.waiting.size
          · rw [if_neg (by omega)]
            obtain ⟨passes, rfl⟩ : ∃ n, passes = n + 1 := ⟨passes - 1, by omega⟩
            rw [settle, if_pos hlt]
            exact ih (valid_pass hvalid) (by omega) (by omega)
          · have hstuck := isStuck_of_pass hlt
            rw [pass_of_stuck hstuck, if_pos rfl, settle_of_stuck hstuck, result, hfirst]
            exact inRange_entry rfl (inRange_throw _)

end Schedule

theorem inRange_orderAt (h : ∀ id ∈ net.references, id < net.size) :
    InRange net.orderAt net.order := by
  have hwaiting := Schedule.size_waiting_start_le net
  exact Schedule.inRange_settleAt h (Schedule.valid_start net) (Nat.lt_succ_of_le hwaiting) hwaiting

end Net

end GeneralGame
