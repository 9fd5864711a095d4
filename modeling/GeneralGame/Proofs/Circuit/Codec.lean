import GeneralGame.Circuit.Encoding
import GeneralGame.Proofs.Circuit.Tables
import Mathlib.Algebra.Group.Nat.Defs
import Mathlib.Data.List.Forall2

/-!
Laws of byte forms. A lawful form is read back as it was written, and looks at no byte past the
value; so bytes that break off in the middle of a value are those of none. Each way to build a form
keeps the laws, for the values whose numbers and lengths fit their width.
-/
namespace GeneralGame

theorem toList_byteArray (bytes : ByteArray) : bytes.toList = bytes.data.toList := by
  have hloop : ∀ i read, ByteArray.toList.loop bytes i read = read.reverse ++ bytes.data.toList.drop i := by
    intro i read
    induction i, read using ByteArray.toList.loop.induct bytes with
    | case1 i read hlt ih =>
        have hlt' : i < bytes.data.toList.length := hlt
        have hget : bytes.get! i = bytes.data.toList[i] := by
          change bytes.data[i]! = _
          rw [getElem!_pos bytes.data i hlt, Array.getElem_toList]
        rw [ByteArray.toList.loop, if_pos hlt, ih, List.drop_eq_getElem_cons hlt', hget,
          List.reverse_cons, List.append_assoc, List.singleton_append]
    | case2 i read hge =>
        have hge' : bytes.data.toList.length ≤ i := Nat.not_lt.mp hge
        rw [ByteArray.toList.loop, if_neg hge, List.drop_eq_nil_of_le hge', List.append_nil]
  exact hloop 0 []

theorem fromUTF8?_toUTF8 (s : String) : String.fromUTF8? ⟨s.toUTF8.toList.toArray⟩ = some s := by
  rw [toList_byteArray]
  exact dif_pos s.isValidUTF8

namespace Codec

variable {α β : Type} {a : Codec α} {b : Codec β} {A : α → Prop} {B : β → Prop}

/-- A form of the values that fit. -/
structure Lawful (a : Codec α) (Fits : α → Prop) : Prop where
  /-- What is written is read back, whatever comes after it. -/
  read_write : ∀ x, Fits x → ∀ rest, a.read (a.write x ++ rest) = some (x, rest)
  /-- What is read does not depend on what comes after it. -/
  read_append : ∀ bytes x rest, a.read bytes = some (x, rest) →
    ∀ more, a.read (bytes ++ more) = some (x, rest ++ more)
  fits : ∀ bytes x rest, a.read bytes = some (x, rest) → Fits x

/-- No value is written at the front of bytes that break off before its end. -/
theorem Lawful.read_of_prefix (ha : a.Lawful A) {x : α} (hx : A x) {bytes : Bytes}
    (hbroken : bytes <+: a.write x) (hne : bytes ≠ a.write x) : a.read bytes = none := by
  obtain ⟨missing, hmissing⟩ := hbroken
  cases hread : a.read bytes with
  | none => rfl
  | some found =>
      have happend := ha.read_append _ _ _ hread missing
      have hwrite := ha.read_write x hx []
      rw [hmissing, ← List.append_nil (a.write x), hwrite, Option.some.injEq, Prod.mk.injEq] at happend
      obtain ⟨-, hrest⟩ := happend
      obtain ⟨-, rfl⟩ := List.append_eq_nil_iff.mp hrest.symm
      exact absurd (List.append_nil bytes ▸ hmissing) hne

/-! ### Numbers -/

theorem readNat_writeNat (width n : Nat) (hn : n < 256 ^ width) (rest : Bytes) :
    readNat width (writeNat width n ++ rest) = some (n, rest) := by
  induction width generalizing n with
  | zero =>
      obtain rfl : n = 0 := by omega
      rfl
  | succ width ih =>
      have hdiv : n / 256 < 256 ^ width := by
        rw [Nat.pow_succ] at hn
        omega
      have hbyte : (UInt8.ofNat n).toNat = n % 256 := UInt8.toNat_ofNat
      simp only [writeNat, List.cons_append, readNat, ih _ hdiv, Option.bind_eq_bind, Option.bind_some,
        hbyte, Nat.mod_add_div]
      rfl

theorem readNat_eq_some {width n : Nat} {bytes rest : Bytes}
    (h : readNat width bytes = some (n, rest)) :
    n < 256 ^ width ∧ ∀ more, readNat width (bytes ++ more) = some (n, rest ++ more) := by
  induction width generalizing n bytes with
  | zero =>
      cases h
      exact ⟨Nat.one_pos, fun _ => rfl⟩
  | succ width ih =>
      cases bytes with
      | nil => cases h
      | cons byte bytes =>
          obtain ⟨⟨m, rest'⟩, hread, h⟩ := Option.bind_eq_some_iff.mp h
          cases h
          obtain ⟨hlt, happend⟩ := ih hread
          have hbyte := byte.toNat_lt
          constructor
          · rw [Nat.pow_succ]
            omega
          · intro more
            simp only [List.cons_append, readNat, happend, Option.bind_eq_bind, Option.bind_some]
            rfl

theorem lawful_nat (width : Nat) : (nat width).Lawful (· < 256 ^ width) where
  read_write := readNat_writeNat width
  read_append _ _ _ h := (readNat_eq_some h).2
  fits _ _ _ h := (readNat_eq_some h).1

/-! ### Parts side by side -/

theorem lawful_pair (ha : a.Lawful A) (hb : b.Lawful B) :
    (pair a b).Lawful fun x => A x.1 ∧ B x.2 where
  read_write := by
    rintro ⟨x, y⟩ ⟨hx, hy⟩ rest
    simp only [pair, List.append_assoc, ha.read_write x hx, hb.read_write y hy,
      Option.bind_eq_bind, Option.bind_some]
    rfl
  read_append := by
    intro bytes xy rest h more
    obtain ⟨⟨x, middle⟩, hx, h⟩ := Option.bind_eq_some_iff.mp h
    obtain ⟨⟨y, last⟩, hy, h⟩ := Option.bind_eq_some_iff.mp h
    cases h
    simp only [pair, ha.read_append _ _ _ hx, hb.read_append _ _ _ hy, Option.bind_eq_bind,
      Option.bind_some]
    rfl
  fits := by
    intro bytes xy rest h
    obtain ⟨⟨x, middle⟩, hx, h⟩ := Option.bind_eq_some_iff.mp h
    obtain ⟨⟨y, last⟩, hy, h⟩ := Option.bind_eq_some_iff.mp h
    cases h
    exact ⟨ha.fits _ _ _ hx, hb.fits _ _ _ hy⟩

/-- A form of the values that `toWrite` and `ofRead` translate back and forth. -/
theorem lawful_convert (ha : a.Lawful A) {toWrite : β → α} {ofRead : α → Option β}
    (hwrite : ∀ y, B y → A (toWrite y) ∧ ofRead (toWrite y) = some y)
    (hread : ∀ x y, A x → ofRead x = some y → B y) : (a.convert toWrite ofRead).Lawful B where
  read_write y hy rest := by
    obtain ⟨hfits, hback⟩ := hwrite y hy
    simp only [convert, ha.read_write _ hfits, hback, Option.bind_eq_bind, Option.bind_some]
    rfl
  read_append bytes y rest h more := by
    obtain ⟨⟨x, last⟩, hx, h⟩ := Option.bind_eq_some_iff.mp h
    obtain ⟨y', hy, h⟩ := Option.bind_eq_some_iff.mp h
    cases h
    simp only [convert, ha.read_append _ _ _ hx, hy, Option.bind_eq_bind, Option.bind_some]
    rfl
  fits bytes y rest h := by
    obtain ⟨⟨x, last⟩, hx, h⟩ := Option.bind_eq_some_iff.mp h
    obtain ⟨y', hy, h⟩ := Option.bind_eq_some_iff.mp h
    cases h
    exact hread x _ (ha.fits _ _ _ hx) hy

/-! ### Lists -/

theorem readMany_write (ha : a.Lawful A) {xs : List α} (hxs : ∀ x ∈ xs, A x) (rest : Bytes) :
    readMany a xs.length (xs.flatMap a.write ++ rest) = some (xs, rest) := by
  induction xs with
  | nil => rfl
  | cons x xs ih =>
      obtain ⟨hx, hxs⟩ := List.forall_mem_cons.mp hxs
      simp only [List.flatMap_cons, List.append_assoc, List.length_cons, readMany,
        ha.read_write x hx, ih hxs, Option.bind_eq_bind, Option.bind_some]
      rfl

theorem readMany_eq_some (ha : a.Lawful A) {n : Nat} {bytes rest : Bytes} {xs : List α}
    (h : readMany a n bytes = some (xs, rest)) :
    xs.length = n ∧ (∀ x ∈ xs, A x) ∧
      ∀ more, readMany a n (bytes ++ more) = some (xs, rest ++ more) := by
  induction n generalizing bytes xs with
  | zero =>
      cases h
      exact ⟨rfl, nofun, fun _ => rfl⟩
  | succ n ih =>
      obtain ⟨⟨x, middle⟩, hx, h⟩ := Option.bind_eq_some_iff.mp h
      obtain ⟨⟨ys, last⟩, hys, h⟩ := Option.bind_eq_some_iff.mp h
      cases h
      obtain ⟨hlength, hall, happend⟩ := ih hys
      refine ⟨congrArg (· + 1) hlength, List.forall_mem_cons.mpr ⟨ha.fits _ _ _ hx, hall⟩, ?_⟩
      intro more
      simp only [readMany, ha.read_append _ _ _ hx, happend, Option.bind_eq_bind, Option.bind_some]
      rfl

/-- The ranges of a list: a length of eight bytes, and those of its entries. -/
def ListFits (A : α → Prop) (xs : List α) : Prop := xs.length < 256 ^ 8 ∧ ∀ x ∈ xs, A x

instance [DecidablePred A] : DecidablePred (ListFits A) :=
  fun xs => inferInstanceAs (Decidable (xs.length < 256 ^ 8 ∧ ∀ x ∈ xs, A x))

theorem lawful_list (ha : a.Lawful A) : (list a).Lawful (ListFits A) where
  read_write := by
    rintro xs ⟨hlength, hall⟩ rest
    have hread := (lawful_nat 8).read_write xs.length hlength (xs.flatMap a.write ++ rest)
    simp only [list, length, List.append_assoc, hread, Option.bind_eq_bind, Option.bind_some,
      readMany_write ha hall]
  read_append := by
    intro bytes xs rest h more
    obtain ⟨⟨n, middle⟩, hn, h⟩ := Option.bind_eq_some_iff.mp h
    have hread := (lawful_nat 8).read_append _ _ _ hn more
    simp only [list, length, hread, Option.bind_eq_bind, Option.bind_some]
    exact (readMany_eq_some ha h).2.2 more
  fits := by
    intro bytes xs rest h
    obtain ⟨⟨n, middle⟩, hn, h⟩ := Option.bind_eq_some_iff.mp h
    obtain ⟨hlength, hall, -⟩ := readMany_eq_some ha h
    refine ⟨?_, hall⟩
    rw [hlength]
    exact (lawful_nat 8).fits _ _ _ hn

theorem lawful_array (ha : a.Lawful A) : (array a).Lawful fun xs => ListFits A xs.toList := by
  refine lawful_convert (lawful_list ha) (fun xs hxs => ⟨hxs, ?_⟩) fun xs ys hxs h => ?_
  · rw [Array.toArray_toList]
  · cases h
    exact hxs

theorem lawful_roleTable (ha : a.Lawful A) : (roleTable a).Lawful fun t => ListFits A t.toList := by
  refine lawful_convert (lawful_array ha) (fun t ht => ⟨ht, rfl⟩) fun xs t hxs h => ?_
  cases h
  exact hxs

/-! ### Choices -/

theorem lawful_option (ha : a.Lawful A) : (option a).Lawful fun o => ∀ x ∈ o, A x where
  read_write := by
    intro o ho rest
    cases o with
    | none => rfl
    | some x =>
        change ((a.read (a.write x ++ rest)).bind fun xr => some (some xr.1, xr.2)) = _
        rw [ha.read_write x (ho x rfl)]
        rfl
  read_append := by
    intro bytes o rest h more
    simp only [option] at h
    split at h
    · cases h
      rfl
    · obtain ⟨⟨x, last⟩, hx, h⟩ := Option.bind_eq_some_iff.mp h
      cases h
      simp only [option, List.cons_append, ha.read_append _ _ _ hx, Option.bind_eq_bind,
        Option.bind_some]
      rfl
    · cases h
  fits := by
    intro bytes o rest h
    simp only [option] at h
    split at h
    · cases h
      exact nofun
    · obtain ⟨⟨x, last⟩, hx, h⟩ := Option.bind_eq_some_iff.mp h
      cases h
      rintro y ⟨⟩
      exact ha.fits _ _ _ hx
    · cases h

theorem lawful_bool : bool.Lawful fun _ => True where
  read_write := by
    rintro (_ | _) - rest <;> rfl
  read_append := by
    intro bytes v rest h more
    simp only [bool] at h
    split at h <;> cases h <;> rfl
  fits _ _ _ _ := trivial

theorem lawful_kind : kind.Lawful fun _ => True where
  read_write := by
    intro k _ rest
    cases k with
    | constant v => cases v <;> rfl
    | _ => rfl
  read_append := by
    intro bytes k rest h more
    obtain ⟨⟨n, middle⟩, hn, h⟩ := Option.bind_eq_some_iff.mp h
    have hread := (lawful_nat 4).read_append _ _ _ hn more
    simp only [kind, hread, Option.bind_eq_bind, Option.bind_some]
    simp only at h
    split at h
    case h_6 =>
      obtain ⟨⟨v, last⟩, hv, h⟩ := Option.bind_eq_some_iff.mp h
      cases h
      simp only [lawful_bool.read_append _ _ _ hv, Option.bind_some]
      rfl
    case h_7 => cases h
    all_goals
      cases h
      rfl
  fits _ _ _ _ := trivial

/-! ### Texts -/

theorem splitBytes_eq_some {n : Nat} {bytes front rest : Bytes} :
    splitBytes n bytes = some (front, rest) ↔ bytes = front ++ rest ∧ front.length = n := by
  induction n generalizing bytes front with
  | zero =>
      rw [splitBytes, Option.some.injEq, Prod.mk.injEq, List.length_eq_zero_iff]
      constructor
      · rintro ⟨rfl, rfl⟩
        exact ⟨rfl, rfl⟩
      · rintro ⟨rfl, rfl⟩
        exact ⟨rfl, rfl⟩
  | succ n ih =>
      cases bytes with
      | nil =>
          refine iff_of_false nofun ?_
          rintro ⟨hnil, hlength⟩
          rw [List.nil_eq, List.append_eq_nil_iff] at hnil
          rw [hnil.1] at hlength
          cases hlength
      | cons byte bytes =>
          constructor
          · intro h
            obtain ⟨⟨front', rest'⟩, hsplit, h⟩ := Option.bind_eq_some_iff.mp h
            cases h
            obtain ⟨rfl, rfl⟩ := ih.mp hsplit
            exact ⟨rfl, rfl⟩
          · rintro ⟨hbytes, hlength⟩
            cases front with
            | nil => cases hlength
            | cons byte' front =>
                rw [List.cons_append, List.cons.injEq] at hbytes
                have hsplit := ih.mpr ⟨hbytes.2, Nat.succ.inj hlength⟩
                simp only [splitBytes, hsplit, hbytes.1, Option.bind_eq_bind, Option.bind_some]
                rfl

/-- The range of a text: a length of eight bytes. -/
def TextFits (s : String) : Prop := s.utf8ByteSize < 256 ^ 8

instance : DecidablePred TextFits := fun s => inferInstanceAs (Decidable (s.utf8ByteSize < 256 ^ 8))

theorem lawful_text : text.Lawful TextFits where
  read_write s hs rest := by
    have hlength : s.toUTF8.toList.length = s.utf8ByteSize := by
      rw [toList_byteArray]
      rfl
    have hread := (lawful_nat 8).read_write s.utf8ByteSize hs (s.toUTF8.toList ++ rest)
    have hsplit : splitBytes s.utf8ByteSize (s.toUTF8.toList ++ rest) =
        some (s.toUTF8.toList, rest) := splitBytes_eq_some.mpr ⟨rfl, hlength⟩
    simp only [text, length, List.append_assoc, hread, hsplit, fromUTF8?_toUTF8,
      Option.bind_eq_bind, Option.bind_some]
    rfl
  read_append bytes s rest h more := by
    obtain ⟨⟨n, middle⟩, hn, h⟩ := Option.bind_eq_some_iff.mp h
    obtain ⟨⟨front, last⟩, hsplit, h⟩ := Option.bind_eq_some_iff.mp h
    obtain ⟨s', hs, h⟩ := Option.bind_eq_some_iff.mp h
    cases h
    have hread := (lawful_nat 8).read_append _ _ _ hn more
    obtain ⟨rfl, hlength⟩ := splitBytes_eq_some.mp hsplit
    have hsplit' : splitBytes n (front ++ rest ++ more) = some (front, rest ++ more) :=
      splitBytes_eq_some.mpr ⟨List.append_assoc _ _ _, hlength⟩
    simp only [text, length, hread, hsplit', hs, Option.bind_eq_bind, Option.bind_some]
    rfl
  fits bytes s rest h := by
    obtain ⟨⟨n, middle⟩, hn, h⟩ := Option.bind_eq_some_iff.mp h
    obtain ⟨⟨front, last⟩, hsplit, h⟩ := Option.bind_eq_some_iff.mp h
    obtain ⟨s', hs, h⟩ := Option.bind_eq_some_iff.mp h
    cases h
    obtain ⟨hvalid, hs⟩ := Option.dite_none_right_eq_some.mp hs
    cases hs
    have hlength := (splitBytes_eq_some.mp hsplit).2
    change front.length < 256 ^ 8
    rw [hlength]
    exact (lawful_nat 8).fits _ _ _ hn

/-! ### Nets -/

/-- The range of a component's number, which takes four bytes. -/
def IdFits (id : ComponentId) : Prop := id < 256 ^ 4

instance : DecidablePred IdFits := fun id => inferInstanceAs (Decidable (id < 256 ^ 4))

/-- The ranges of a move with its component. -/
def EntryFits (e : Move × ComponentId) : Prop := TextFits e.1.name ∧ IdFits e.2

instance : DecidablePred EntryFits :=
  fun e => inferInstanceAs (Decidable (TextFits e.1.name ∧ IdFits e.2))

structure ComponentFits (c : Component) : Prop where
  inputs : ListFits IdFits c.inputs
  name : ∀ s ∈ c.name, TextFits s

instance : DecidablePred ComponentFits := fun c =>
  decidable_of_iff (ListFits IdFits c.inputs ∧ ∀ s ∈ c.name, TextFits s)
    ⟨fun h => ⟨h.1, h.2⟩, fun h => ⟨h.inputs, h.name⟩⟩

/-- The ranges of all numbers, lengths and texts of a net. -/
structure NetFits (net : Net) : Prop where
  roles : ListFits TextFits net.roles
  components : ListFits ComponentFits net.components.toList
  init : IdFits net.init
  bases : ListFits IdFits net.bases.toList
  inputs : ListFits (fun t => ListFits EntryFits t.entries) net.inputs.toList
  legals : ListFits (ListFits EntryFits) net.legals.toList
  /-- A goal value takes one byte. -/
  goals : ListFits (ListFits fun goal => goal.1 < 256 ^ 1 ∧ IdFits goal.2) net.goals.toList
  terminal : IdFits net.terminal

theorem lawful_id : id.Lawful IdFits := lawful_nat 4

theorem lawful_component : component.Lawful ComponentFits := by
  refine lawful_convert (lawful_pair lawful_kind
    (lawful_pair (lawful_list lawful_id) (lawful_option lawful_text))) ?_ ?_
  · exact fun c hc => ⟨⟨trivial, hc.inputs, hc.name⟩, rfl⟩
  · rintro ⟨kind, inputs, name⟩ c ⟨-, hinputs, hname⟩ h
    cases h
    exact ⟨hinputs, hname⟩

theorem lawful_move : move.Lawful fun m => TextFits m.name := by
  refine lawful_convert lawful_text (fun m hm => ⟨hm, rfl⟩) fun s m hs h => ?_
  cases h
  exact hs

theorem lawful_entry : (pair move id).Lawful EntryFits := lawful_pair lawful_move lawful_id

/-- A table is read back entry by entry, as no move has two. -/
theorem lawful_moveTable : moveTable.Lawful fun t => ListFits EntryFits t.entries := by
  refine lawful_convert (lawful_list lawful_entry) (fun t ht => ⟨ht, ?_⟩) fun es t hes h => ?_
  · exact congrArg some (MoveTable.ext (MoveTable.entries_ofList t.nodup))
  · cases h
    exact ⟨Nat.lt_of_le_of_lt (MoveTable.length_entries_ofList_le es) hes.1,
      fun e he => hes.2 e (MoveTable.mem_entries_ofList he)⟩

theorem lawful_net : net.Lawful NetFits := by
  refine lawful_convert (lawful_pair (lawful_list lawful_text) <|
    lawful_pair (lawful_array lawful_component) <| lawful_pair lawful_id <|
    lawful_pair (lawful_array lawful_id) <| lawful_pair (lawful_roleTable lawful_moveTable) <|
    lawful_pair (lawful_roleTable (lawful_list lawful_entry)) <|
    lawful_pair (lawful_roleTable (lawful_list (lawful_pair (lawful_nat 1) lawful_id)))
      lawful_id) ?_ ?_
  · exact fun n hn => ⟨⟨hn.roles, hn.components, hn.init, hn.bases, hn.inputs, hn.legals, hn.goals,
      hn.terminal⟩, rfl⟩
  · rintro ⟨roles, components, init, bases, inputs, legals, goals, terminal⟩ n
      ⟨hroles, hcomponents, hinit, hbases, hinputs, hlegals, hgoals, hterminal⟩ h
    cases h
    exact ⟨hroles, hcomponents, hinit, hbases, hinputs, hlegals, hgoals, hterminal⟩

end Codec

end GeneralGame
