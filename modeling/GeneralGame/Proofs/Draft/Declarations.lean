import GeneralGame.Proofs.Circuit.Faithful
import GeneralGame.Proofs.Circuit.Persistence
import GeneralGame.Proofs.Draft.Account

/-!
Drafts in general. However a draft is declared, each part that is set from outside gets a component
of its own, so that evaluations of the drafted net show what they were marked with. A net that is
read from bytes need not have been drafted, and may let two parts share a component.
-/
namespace GeneralGame

namespace Draft

variable {d d' : Draft} {id : ComponentId}

/-- What is set from outside are components of the draft, all of them different. -/
structure Parted (d : Draft) : Prop where
  distinct : d.outsideIds.Nodup
  lt : ∀ id, d.IsOutside id → id < d.size

/-- A change that leaves what is set from outside as it is. -/
theorem Parted.of_outsideIds (hd : d.Parted) (hids : d'.outsideIds = d.outsideIds)
    (hsize : d.size ≤ d'.size) : d'.Parted := by
  constructor
  · rw [hids]
    exact hd.distinct
  · intro id hid
    rw [IsOutside, hids] at hid
    exact Nat.lt_of_lt_of_le (hd.lt id hid) hsize

/-- A new component is none of those before it. -/
theorem Parted.add (hd : d.Parted) (houtside : d'.outsideIds.Perm (d.size :: d.outsideIds))
    (hsize : d'.size = d.size + 1) : d'.Parted := by
  constructor
  · refine houtside.nodup_iff.mpr (List.nodup_cons.mpr ⟨fun hmem => ?_, hd.distinct⟩)
    exact Nat.lt_irrefl _ (hd.lt _ hmem)
  · intro id hid
    rw [hsize]
    rcases List.mem_cons.mp (houtside.mem_iff.mp hid) with rfl | hid
    · exact Nat.lt_succ_self _
    · exact Nat.lt_succ_of_lt (hd.lt id hid)

/-- Only base and input propositions are set from outside. -/
theorem Parted.register (hd : d.Parted) (x : Declaration) : (d.register x).Parted := by
  have hsize := size_register d x
  cases x with
  | base name =>
      refine hd.add ?_ hsize
      change (init :: (d.bases.push d.size).toList ++ _).Perm
        (d.size :: (init :: d.bases.toList ++ _))
      rw [Array.toList_push, List.cons_append, List.append_assoc]
      exact .trans (.cons _ List.perm_middle) (.swap _ _ _)
  | input role m =>
      refine hd.add ?_ hsize
      change (init :: d.bases.toList ++ (d.inputs.push (role, m, d.size)).toList.map _).Perm _
      rw [Array.toList_push, List.map_append, ← List.append_assoc]
      exact List.perm_append_singleton _ _
  | _ => exact hd.of_outsideIds rfl (hsize ▸ Nat.le_add_right _ _)

/-- The step. -/
theorem Parted.declare (hd : d.Parted) (x : Declaration) : Parted (x.declare.run d).2 := by
  have hjoins := joins_declare x d
  refine (hd.register x).of_outsideIds ?_ (Nat.le_of_eq hjoins.size.symm)
  rw [hjoins.frame]
  rfl

/-- The run. -/
theorem parted_ofDeclarations (roles : List String) (ds : List Declaration) :
    (ofDeclarations roles ds).Parted := by
  induction ds using List.reverseRecOn with
  | nil =>
      constructor
      · exact List.nodup_singleton _
      · intro id hid
        rw [List.mem_singleton.mp hid]
        exact Nat.one_pos
  | append_singleton ds x ih =>
      rw [ofDeclarations, List.foldl_concat]
      exact Parted.declare ih x

/-- A move of the drafted net was declared. -/
theorem mem_inputs_of_input? {t : ComponentId} {r : RoleId} {m : Move}
    (hcount : d.roles.length ≤ maxRoles) (h : (d.assemble t).input? r m = some id) :
    (r, m, id) ∈ d.inputs := by
  have htable := RoleTable.get?_ofRoles hcount (fun r => MoveTable.ofList (ofRole d.inputs r)) r
  change ((RoleTable.ofRoles _ _).get? r).bind _ = some id at h
  rw [htable] at h
  split at h
  · have hentry := MoveTable.mem_entries_ofList (MoveTable.get?_eq_some_iff.mp h)
    obtain ⟨⟨r', m', id'⟩, hmem, hif⟩ := List.mem_filterMap.mp hentry
    obtain ⟨rfl, hsame⟩ := Option.ite_none_right_eq_some.mp hif
    cases hsame
    exact Array.mem_toList_iff.mp hmem
  · cases h

theorem Parted.separates (hd : d.Parted) {t : ComponentId} (hcount : d.roles.length ≤ maxRoles) :
    (d.assemble t).Separates := by
  have hbase : ∀ {f : FactId} {id}, d.bases[f]? = some id → id ∈ d.bases.toList := fun h =>
    Array.mem_toList_iff.mpr (Array.mem_of_getElem? h)
  have hinput : ∀ {r m id}, (d.assemble t).input? r m = some id →
      (r, m, id) ∈ d.inputs.toList := fun h =>
    Array.mem_toList_iff.mpr (mem_inputs_of_input? hcount h)
  obtain ⟨hinit, hbases, hinputs, hapart⟩ := parts_of_distinct hd.distinct
  constructor
  · intro f g id hf hg
    change d.bases[f]? = some id at hf
    change d.bases[g]? = some id at hg
    rw [← Array.getElem?_toList] at hf hg
    have hlt := (List.getElem?_eq_some_iff.mp hf).1
    exact (List.getElem?_inj hlt hbases).mp (hf.trans hg.symm)
  · intro r m r' m' id hm hm'
    have hsame := List.inj_on_of_nodup_map hinputs (hinput hm) (hinput hm') rfl
    simp only [Prod.mk.injEq, and_true] at hsame
    exact hsame
  · exact ⟨fun f hf => hinit.1 (hbase hf),
      fun r m hm => hinit.2 (List.mem_map_of_mem (hinput hm))⟩
  · exact fun f r m id hf hm => hapart id (hbase hf) id (List.mem_map_of_mem (hinput hm)) rfl

/-- Whatever was declared, the parts of the drafted net have components of their own. -/
theorem separates_of_declarations {roles : List String} {ds : List Declaration} {net : Net}
    (h : (ofDeclarations roles ds).toNet = .ok net) : net.Separates := by
  obtain ⟨t, -, rfl, hcheck⟩ := assembled_of_toNet h
  exact (parted_ofDeclarations roles ds).separates hcheck.roleCount_le

end Draft

/-! ### Nets whose parts share components -/

/-- The marking of a machine is faithful where the parts of its net have components of their own, and
not faithful where they share one, if every role can do more than wait. All drafted nets are of the
first kind. -/
theorem marking_faithful_iff_separate {net : Net} {m : Machine} (hm : Machine.ofNet net = .ok m) :
    (net.Separates → m.MarksFaithfully) ∧
      ((∀ r : RoleId, r.index < net.roleCount → m.HasMove r) → m.MarksFaithfully → net.Separates) ∧
      ∀ roles ds, (Draft.ofDeclarations roles ds).toNet = .ok net → net.Separates := by
  obtain ⟨rfl, hnet, -⟩ := Machine.ofNet_eq_ok hm
  exact ⟨Machine.marksFaithfully_of_separates hm, Machine.separates_of_marksFaithfully hnet,
    fun _ _ => Draft.separates_of_declarations⟩

theorem marking_faithful_iff_separate_toss : ∃ net m, Net.toss.toNet = .ok net ∧
    Machine.ofNet net = .ok m ∧ m.MarksFaithfully ∧ m.HasMove (.ofIndex 0) ∧ net.Separates := by
  obtain ⟨m, hm⟩ : ∃ m, Machine.ofNet (Net.toss.assemble 6) = .ok m := ⟨_, rfl⟩
  obtain ⟨hfaithful, hconverse, hdrafted⟩ := marking_faithful_iff_separate hm
  have hmarks := hfaithful (hdrafted _ _ Net.toss_toNet)
  have hmove : m.HasMove (.ofIndex 0) := by
    obtain ⟨hnet, -⟩ := Machine.ofNet_eq_ok hm
    exact ⟨⟨"heads"⟩, 1, by decide, hnet ▸ rfl⟩
  refine ⟨_, m, Net.toss_toNet, hm, hmarks, hmove, ?_⟩
  refine hconverse (fun r hr => ?_) hmarks
  obtain rfl : r = .ofIndex 0 := by
    rw [← r.ofIndex_index, Nat.lt_one_iff.mp hr]
  exact hmove

/-- A net whose initial marker is also the base proposition of its only fact. -/
def echo : Net where
  roles := ["player"]
  components := #[⟨.proposition, [], some "init"⟩, ⟨.proposition, [], some "legal"⟩,
    ⟨.proposition, [], some "goal"⟩, ⟨.proposition, [], some "terminal"⟩]
  init := 0
  bases := #[0]
  inputs := ⟨#[.empty]⟩
  legals := ⟨#[[(⟨"wait"⟩, 1)]]⟩
  goals := ⟨#[[(100, 2)]]⟩
  terminal := 3

/-- Its bytes are accepted and its machine is constructed, but its initial marker holds whenever its
fact does. -/
theorem echo_marks_start : Net.ofBytes echo.toBytes = .ok echo ∧
    ∃ m, Machine.ofNet echo = .ok m ∧
      ∃ v, m.evaluate (.ofFacts [0]) none = .ok v ∧ v.get echo.init = true := by
  have hcheck : echo.WellFormed := by decide +kernel
  have hfits : Codec.NetFits echo := by
    constructor <;> decide +kernel
  have hbytes := Net.ofBytes_toBytes hcheck hfits []
  rw [List.append_nil] at hbytes
  exact ⟨hbytes, _, rfl, _, rfl, rfl⟩

end GeneralGame
