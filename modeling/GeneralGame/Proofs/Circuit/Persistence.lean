import GeneralGame.Proofs.Circuit.Codec
import GeneralGame.Proofs.Circuit.Evaluation
import GeneralGame.Proofs.Circuit.Rearranged
import GeneralGame.Proofs.Game.Legal

/-!
Nets kept as bytes. The bytes of a net are read back as that net, whatever comes after them and in
whichever order they list a role's moves; bytes that break off before the end are malformed.
-/
namespace GeneralGame

namespace Codec

variable {net : Net} {tables : RoleTable MoveTable}

theorem NetFits.relist (h : NetFits net) (htables : net.Relisted tables) :
    NetFits (net.relist tables) where
  roles := h.roles
  components := h.components
  init := h.init
  bases := h.bases
  inputs := by
    obtain ⟨hlength, hall⟩ := h.inputs
    constructor
    · exact htables.length_eq ▸ hlength
    · intro t ht
      obtain ⟨u, hu, hperm⟩ := exists_of_mem_forall₂ htables ht
      obtain ⟨hsize, hentries⟩ := hall u hu
      exact ⟨hperm.length_eq ▸ hsize, fun e he => hentries e (hperm.mem_iff.mp he)⟩
  legals := h.legals
  goals := h.goals
  terminal := h.terminal

end Codec

namespace Net

variable {net : Net} {tables : RoleTable MoveTable}

theorem ofBytes_toBytes (hnet : net.WellFormed) (hfits : Codec.NetFits net) (rest : Bytes) :
    ofBytes (net.toBytes ++ rest) = .ok net :=
  ofBytes_eq_ok.mpr ⟨⟨rest, Codec.lawful_net.read_write net hfits rest⟩, hnet⟩

theorem ofBytes_of_prefix (hfits : Codec.NetFits net) {bytes : Bytes}
    (hbroken : bytes <+: net.toBytes) (hne : bytes ≠ net.toBytes) :
    ofBytes bytes = .error .malformedBytes := by
  have hread := Codec.lawful_net.read_of_prefix hfits hbroken hne
  rw [ofBytes, hread]

/-- What becomes of a net that is kept as bytes, with the moves of its roles in the order of some
tables: it comes back with nothing else changed, and behaves as it did. -/
structure Persists (net : Net) (tables : RoleTable MoveTable) : Prop where
  read : ∀ rest, ofBytes ((net.relist tables).toBytes ++ rest) = .ok (net.relist tables)
  truncated : ∀ bytes, bytes <+: (net.relist tables).toBytes → bytes ≠ (net.relist tables).toBytes →
    ofBytes bytes = .error .malformedBytes
  input? : ∀ r m, (net.relist tables).input? r m = net.input? r m
  order : (net.relist tables).order = net.order
  machine : Machine.ofNet (net.relist tables) = (Machine.ofNet net).map (·.relist tables)
  answers : ∀ m, Machine.ofNet net = .ok m → (m.relist tables).toGame = m.toGame ∧
    ∀ s joint, (m.relist tables).evaluate s joint = m.evaluate s joint

/-- Every net that was drafted or read from bytes persists. The numbers, lengths and texts of a
drafted one have to fit the width that the byte form has for them, as those of a loaded one do. -/
theorem persists_of_accepted
    (hnet : (∃ d, Draft.toNet d = .ok net ∧ Codec.NetFits net) ∨ ∃ bytes, ofBytes bytes = .ok net)
    (htables : net.Relisted tables) : net.Persists tables := by
  have hvalid : net.WellFormed ∧ Codec.NetFits net := by
    rcases hnet with ⟨d, hd, hfits⟩ | ⟨bytes, hbytes⟩
    · exact ⟨(IsAccepted.drafted d hd).wellFormed, hfits⟩
    · obtain ⟨⟨rest, hread⟩, hcheck⟩ := ofBytes_eq_ok.mp hbytes
      exact ⟨hcheck, Codec.lawful_net.fits _ _ _ hread⟩
  obtain ⟨hcheck, hfits⟩ := hvalid
  have hfits' := hfits.relist htables
  constructor
  · exact ofBytes_toBytes (wellFormed_relist htables hcheck) hfits'
  · exact fun bytes hbroken hne => ofBytes_of_prefix hfits' hbroken hne
  · exact input?_relist htables
  · exact order_relist htables
  · exact Machine.ofNet_relist htables hcheck
  · intro m hm
    obtain ⟨rfl, -⟩ := Machine.ofNet_eq_ok hm
    exact ⟨Machine.toGame_relist htables, Machine.evaluate_relist htables⟩

/-- A game of one role with two moves and no facts. -/
def toss : Draft := .ofDeclarations ["tosser"]
  [.input (.ofIndex 0) ⟨"heads"⟩, .input (.ofIndex 0) ⟨"tails"⟩, .legal (.ofIndex 0) ⟨"heads"⟩,
    .legal (.ofIndex 0) ⟨"tails"⟩, .goal (.ofIndex 0) 100, .terminal]

/-- Its moves listed the other way round. -/
def tossed : RoleTable MoveTable := ⟨#[⟨[(⟨"tails"⟩, 2), (⟨"heads"⟩, 1)], by decide⟩]⟩

theorem toss_toNet : toss.toNet = .ok (toss.assemble 6) := by rfl

theorem persists_of_accepted_toss :
    ∃ net, toss.toNet = .ok net ∧ Codec.NetFits net ∧ net.Relisted tossed ∧ net.Persists tossed := by
  have hfits : Codec.NetFits (toss.assemble 6) := by
    constructor <;> decide +kernel
  have htables : (toss.assemble 6).Relisted tossed := .cons (.swap _ _ _) .nil
  exact ⟨_, toss_toNet, hfits, htables,
    persists_of_accepted (.inl ⟨toss, toss_toNet, hfits⟩) htables⟩

end Net

end GeneralGame
