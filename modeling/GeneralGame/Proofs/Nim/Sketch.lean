import GeneralGame.Nim
import GeneralGame.Proofs.Draft.Steps

/-!
What the net of Nim computes. The sketch gives, for a pile of any size, the function of every
proposition; the draft is shown to realize it, loop and boundary cases included.
-/
namespace GeneralGame.Nim

open Draft

/-- The fact that it is a role's turn, in a net for `n` objects. -/
def turnFact (n : Nat) (role : RoleId) : FactId := n + 1 + role.index

@[simp] theorem turnFact_white (n : Nat) : turnFact n white = n + 1 := rfl

@[simp] theorem turnFact_black (n : Nat) : turnFact n black = n + 2 := rfl

def took (m : Move) : Signal := fun x => x.does white m || x.does black m

/-- When there are `k` objects next: they are there at the start, they are left of one or two more,
or nothing is taken from them. -/
def pileFeed (n k : Nat) : Signal := fun x =>
  decide (k = n) && x.start || decide (k < n) && (x.fact (k + 1) && took take1 x)
    || decide (k + 2 ≤ n) && (x.fact (k + 2) && took take2 x)
    || x.fact k && !took take1 x && !took take2 x

/-- There are two objects or more. -/
def twoLeft (n : Nat) : Signal := fun x => ((List.range (n + 1)).drop 2).any x.fact

/-- What the legal propositions of a role tell. -/
def roleLegals (n : Nat) (role : RoleId) (own other : Signal) : List (RoleId × Move × Signal) :=
  [(role, take1, fun x => own x && !x.fact 0), (role, take2, fun x => own x && twoLeft n x),
    (role, .noop, fun x => other x && !x.fact 0)]

def roleGoals (role : RoleId) (other : Signal) : List (RoleId × Nat × Signal) :=
  [(role, 100, fun x => x.fact 0 && other x), (role, 0, fun x => !(x.fact 0 && other x))]

def whiteTurn (n : Nat) : Signal := fun x => x.fact (turnFact n white)

def blackTurn (n : Nat) : Signal := fun x => x.fact (turnFact n black)

/-- The facts of the game, without what they follow from, and its moves. -/
def outline (n : Nat) : Sketch :=
  { Sketch.new ["white", "black"] with
    facts := (List.range (n + 1)).map (fun k => s!"count_{k}") ++ ["control_white"]
      ++ ["control_black"]
    inputs := [(white, take1), (white, take2), (black, take1), (black, take2)] }

/-- The outline with what makes the piles of fewer than `j` objects. -/
def pileSketch (n j : Nat) : Sketch :=
  { outline n with feeds := fun f => if f < j then some (pileFeed n f) else none }

theorem pileSketch_zero (n : Nat) : pileSketch n 0 = outline n := by
  have hfeeds : (fun f => if f < 0 then some (pileFeed n f) else none) = fun _ => none := by
    funext f
    exact if_neg (Nat.not_lt_zero f)
  rw [pileSketch, hfeeds]
  rfl

theorem feed_pileSketch (n j : Nat) :
    (pileSketch n j).feed j (pileFeed n j) = pileSketch n (j + 1) := by
  have hfeeds : (fun f => if f = j then some (pileFeed n j) else
      if f < j then some (pileFeed n f) else none) =
        fun f => if f < j + 1 then some (pileFeed n f) else none := by
    funext f
    rcases Nat.lt_trichotomy f j with hlt | rfl | hgt
    · rw [if_neg (Nat.ne_of_lt hlt), if_pos hlt, if_pos (Nat.lt_succ_of_lt hlt)]
    · rw [if_pos rfl, if_pos (Nat.lt_succ_self f)]
    · rw [if_neg (Nat.ne_of_gt hgt), if_neg (Nat.lt_asymm hgt), if_neg (by omega)]
  exact congrArg (fun feeds => { outline n with feeds }) hfeeds

def sketch (n : Nat) : Sketch :=
  { ((pileSketch n (n + 1)).feed (turnFact n white) fun x => x.start || blackTurn n x).feed
      (turnFact n black) (whiteTurn n) with
    legals := roleLegals n white (whiteTurn n) (blackTurn n)
      ++ roleLegals n black (blackTurn n) (whiteTurn n)
    goals := roleGoals white (blackTurn n) ++ roleGoals black (whiteTurn n)
    terminal := some fun x => x.fact 0 }

section

variable {n : Nat} {d : Draft} {k : Sketch} {role : RoleId}

/-- The gates over the moves tell what was taken. -/
structure Takes.Reads (t : Takes) (d : Draft) : Prop where
  one : d.Signals t.one (took take1)
  two : d.Signals t.two (took take2)
  notOne : d.Signals t.notOne fun x => !took take1 x
  notTwo : d.Signals t.notTwo fun x => !took take2 x

theorem Takes.Reads.mono {t : Takes} {d' : Draft} (h : t.Reads d) (hg : d.Grows d') : t.Reads d' :=
  ⟨h.one.mono hg, h.two.mono hg, h.notOne.mono hg, h.notTwo.mono hg⟩

theorem yields_takes (hk : d.Realizes k) :
    d.Yields takes
      { k with inputs := k.inputs ++ [(white, take1), (white, take2), (black, take1), (black, take2)] }
      Takes.Reads := by
  have hinputs : k.inputs ++ [(white, take1), (white, take2), (black, take1), (black, take2)] =
      k.inputs ++ [(white, take1)] ++ [(white, take2)] ++ [(black, take1)] ++ [(black, take2)] := by
    simp
  rw [hinputs, takes]
  refine (yields_input hk white take1).bind fun white1 d₁ _ hk₁ hwhite1 => ?_
  refine (yields_input hk₁ white take2).bind fun white2 d₂ hg₂ hk₂ hwhite2 => ?_
  refine (yields_input hk₂ black take1).bind fun black1 d₃ hg₃ hk₃ hblack1 => ?_
  refine (yields_input hk₃ black take2).bind fun black2 d₄ hg₄ hk₄ hblack2 => ?_
  have hone : List.Forall₂ d₄.Signals [white1, black1]
      [fun x => x.does white take1, fun x => x.does black take1] :=
    .cons (((hwhite1.mono hg₂).mono hg₃).mono hg₄) (.cons (hblack1.mono hg₄) .nil)
  refine (yields_or hk₄ hone (List.cons_ne_nil _ _)).bind fun one d₅ hg₅ hk₅ hone => ?_
  have htwo : List.Forall₂ d₅.Signals [white2, black2]
      [fun x => x.does white take2, fun x => x.does black take2] :=
    .cons (((hwhite2.mono hg₃).mono hg₄).mono hg₅) (.cons (hblack2.mono hg₅) .nil)
  refine (yields_or hk₅ htwo (List.cons_ne_nil _ _)).bind fun two d₆ hg₆ hk₆ htwo => ?_
  have hone : d₆.Signals one (took take1) := (hone.mono hg₆).congr fun x => by simp [took]
  have htwo : d₆.Signals two (took take2) := htwo.congr fun x => by simp [took]
  refine (yields_not hk₆ hone).bind fun notOne d₇ hg₇ hk₇ hnotOne => ?_
  refine (yields_not hk₇ (htwo.mono hg₇)).bind fun notTwo d₈ hg₈ hk₈ hnotTwo => .pure hk₈ ?_
  have hg := hg₇.trans hg₈
  exact ⟨hone.mono hg, htwo.mono hg, hnotOne.mono hg₈, hnotTwo⟩

/-- A gate under a condition stands for nothing where the condition fails. -/
theorem yields_gateIf (hk : d.Realizes k) (condition : Bool) {ids : List ComponentId}
    {fs : List Signal} (hids : condition = true → List.Forall₂ d.Signals ids fs) (hne : ids ≠ []) :
    d.Yields (gateIf condition (and ids)) k fun gates d' =>
      ∃ gs, List.Forall₂ d'.Signals gates gs ∧
        ∀ x, (gs.any fun g => g x) = (condition && fs.all fun f => f x) := by
  cases condition with
  | false => exact .pure hk ⟨[], .nil, fun x => rfl⟩
  | true =>
      refine (yields_and hk (hids rfl) hne).bind fun gate d' _ hk' hgate => .pure hk' ?_
      exact ⟨_, .cons hgate .nil, fun x => by simp⟩

theorem yields_pileOf (hk : d.Realizes k) {count : Nat → ComponentId}
    (hcount : ∀ i ≤ n, d.bases[i]? = some (count i)) {t : Takes} (ht : t.Reads d) {j : Nat}
    (hj : j ≤ n) (hfree : k.feeds j = none) :
    d.Yields (pileOf n count t j) (k.feed j (pileFeed n j)) fun _ _ => True := by
  have hsignal : ∀ i ≤ n, ∀ d', d.Grows d' → d'.Tidy → d'.Signals (count i) fun x => x.fact i :=
    fun i hi d' hg htidy => htidy.signals_fact (hg.bases i _ (hcount i hi))
  have hone : decide (j < n) = true →
      List.Forall₂ d.Signals [count (j + 1), t.one] [fun x => x.fact (j + 1), took take1] :=
    fun hlt => .cons (hsignal _ (of_decide_eq_true hlt) d (.refl d) hk.tidy) (.cons ht.one .nil)
  rw [pileOf]
  refine (yields_gateIf hk _ hone (List.cons_ne_nil _ _)).bind fun fromOneMore d₁ hg₁ hk₁ hmore₁ => ?_
  have htwo : decide (j + 2 ≤ n) = true →
      List.Forall₂ d₁.Signals [count (j + 2), t.two] [fun x => x.fact (j + 2), took take2] :=
    fun hle => .cons (hsignal _ (of_decide_eq_true hle) d₁ hg₁ hk₁.tidy)
      (.cons (ht.two.mono hg₁) .nil)
  refine (yields_gateIf hk₁ _ htwo (List.cons_ne_nil _ _)).bind fun fromTwoMore d₂ hg₂ hk₂ hmore₂ => ?_
  obtain ⟨gs₁, hgates₁, hgs₁⟩ := hmore₁
  obtain ⟨gs₂, hgates₂, hgs₂⟩ := hmore₂
  have hg := hg₁.trans hg₂
  have hstays : List.Forall₂ d₂.Signals [count j, t.notOne, t.notTwo]
      [fun x => x.fact j, fun x => !took take1 x, fun x => !took take2 x] :=
    .cons (hsignal j hj d₂ hg hk₂.tidy) (.cons (ht.notOne.mono hg) (.cons (ht.notTwo.mono hg) .nil))
  refine (yields_and hk₂ hstays (List.cons_ne_nil _ _)).bind fun stays d₃ hg₃ hk₃ hstays => ?_
  have hstart : ∃ gs, List.Forall₂ d₃.Signals (if j = n then [init] else []) gs ∧
      ∀ x, (gs.any fun g => g x) = (decide (j = n) && x.start) := by
    split
    · rename_i hn
      exact ⟨_, .cons hk₃.tidy.signals_init .nil, fun x => by simp [hn]⟩
    · rename_i hn
      exact ⟨[], .nil, fun x => by simp [hn]⟩
  obtain ⟨gs₀, hgates₀, hgs₀⟩ := hstart
  have hsources := List.rel_append (List.rel_append (List.rel_append hgates₀
    (hgates₁.imp fun _ _ h => (h.mono hg₂).mono hg₃)) (hgates₂.imp fun _ _ h => h.mono hg₃))
    (List.Forall₂.cons hstays .nil)
  have hne : (if j = n then [init] else []) ++ fromOneMore ++ fromTwoMore ++ [stays] ≠ [] :=
    List.append_ne_nil_of_right_ne_nil _ (List.cons_ne_nil _ _)
  refine (yields_or hk₃ hsources hne).bind fun source d₄ hg₄ hk₄ hsource => ?_
  have hfeed : d₄.Signals source (pileFeed n j) := by
    refine hsource.congr fun x => ?_
    simp only [List.any_append, hgs₀, hgs₁, hgs₂, pileFeed]
    simp [Bool.and_assoc]
  have hbase := ((hg.trans hg₃).trans hg₄).bases j _ (hcount j hj)
  exact (yields_next hk₄ hbase hfree hfeed).discard

/-! ### Legal moves and scores -/

theorem allow_run (role : RoleId) (m : Move) {ids : List ComponentId} (hids : ∀ i ∈ ids, i < d.size) :
    (allow role m ids).run d = ((), { d.extend
      [⟨.proposition, [d.size + 1], some s!"legal {role.index} {m.name}"⟩, ⟨.and, ids, none⟩] with
      legals := d.legals.push (role, m, d.size) }) := by
  let d₁ := { d.extend [⟨.proposition, [], some s!"legal {role.index} {m.name}"⟩] with
    legals := d.legals.push (role, m, d.size) }
  have hsize₁ : d₁.size = d.size + 1 := Array.size_push _
  have hgate : (and ids).run d₁ = (d.size + 1, d₁.extend [⟨.and, ids, none⟩]) := by
    rw [← hsize₁]
    exact addGate_run fun i hi => hsize₁ ▸ Nat.lt_succ_of_lt (hids i hi)
  have hsize₂ : (d₁.extend [⟨.and, ids, none⟩]).size = d.size + 1 + 1 :=
    (Array.size_push _).trans (congrArg Nat.succ hsize₁)
  have hconnect : (connect (d.size + 1) d.size).run (d₁.extend [⟨.and, ids, none⟩]) =
      ((), (d₁.extend [⟨.and, ids, none⟩]).wire d.size [d.size + 1]) :=
    connect_run (hsize₂ ▸ Nat.lt_succ_self _) (hsize₂ ▸ Nat.lt_succ_of_lt (Nat.lt_succ_self _))
  have hwire := wire_extend d ⟨.proposition, [], some s!"legal {role.index} {m.name}"⟩
    [⟨.and, ids, none⟩] [d.size + 1]
  change ((and ids).run d₁ >>= fun r => (connect r.1 d.size).run r.2) = _
  rw [hgate]
  refine hconnect.trans (congrArg (Prod.mk ()) ?_)
  exact congrArg (fun d' => { d' with legals := d.legals.push (role, m, d.size) }) hwire

theorem yields_allow (hk : d.Realizes k) (role : RoleId) (m : Move) {ids : List ComponentId}
    {fs : List Signal} (hids : List.Forall₂ d.Signals ids fs) (hne : ids ≠ []) :
    d.Yields (allow role m ids)
      { k with legals := k.legals ++ [(role, m, fun x => fs.all fun f => f x)] } fun _ _ => True := by
  have hlt : ∀ i ∈ ids, i < d.size := fun i hi => (source_of_forall₂ hids i hi).lt hk.tidy
  have hrun := allow_run role m hlt
  generalize some s!"legal {role.index} {m.name}" = name at hrun
  let e := d.extend [⟨.proposition, [d.size + 1], name⟩, ⟨.and, ids, none⟩]
  have hgrows : d.Grows e := d.grows_extend _
  have hgate : e.component? (d.size + 1) = some ⟨.and, ids, none⟩ := component?_extend_add d _ 1
  have hsignal : e.Signals (d.size + 1) fun x => fs.all fun f => f x :=
    .of_gate hgate nofun (hk.tidy.not_isOutside_new _ 1) fun _ _ =>
      output_and (hids.imp fun _ _ h => h.mono hgrows)
  have hfits : ∀ j c, [Component.mk .and ids none][j]? = some c → e.Fits (d.size + (j + 1)) c :=
    forall_getElem?_singleton ⟨fun i hi => (source_of_forall₂ hids i hi).mono hgrows,
      fun _ i hi => Nat.lt_succ_of_lt (hlt i hi), decide_eq_true (List.length_pos_iff.mpr hne)⟩
  obtain ⟨hk', hmark⟩ := hk.extend_mark hsignal hfits
  exact .of_run hrun (hgrows.trans (e.grows_declare _ _ _))
    (hk'.declare (hk'.legals.push role m hmark) hk'.goals hk'.terminal) trivial

/-- A move that is legal under two conditions. -/
theorem yields_allow_both (hk : d.Realizes k) (role : RoleId) (m : Move) {i j : ComponentId}
    {f g : Signal} (hi : d.Signals i f) (hj : d.Signals j g) :
    d.Yields (allow role m [i, j]) { k with legals := k.legals ++ [(role, m, fun x => f x && g x)] }
      fun _ _ => True := by
  have hsignal : (fun x => f x && g x) = fun x => [f, g].all fun h => h x := by
    funext x
    simp
  rw [hsignal]
  exact yields_allow hk role m (.cons hi (.cons hj .nil)) (List.cons_ne_nil _ _)

theorem yields_legal_blank (hk : d.Realizes k) (role : RoleId) (m : Move) :
    d.Yields (legal role m) { k with legals := k.legals ++ [(role, m, fun _ => false)] }
      fun _ _ => True := by
  let e := d.extend [⟨.proposition, [], some s!"legal {role.index} {m.name}"⟩]
  have hrun : (legal role m).run d =
      (d.size, { e with legals := d.legals.push (role, m, d.size) }) := rfl
  obtain ⟨hk', hmark⟩ := hk.extend_blank (some s!"legal {role.index} {m.name}")
  exact .of_run hrun ((d.grows_extend _).trans (e.grows_declare _ _ _))
    (hk'.declare (hk'.legals.push role m hmark) hk'.goals hk'.terminal) trivial

theorem yields_allowTwo (hk : d.Realizes k) (role : RoleId) {own : ComponentId} {f : Signal}
    (hown : d.Signals own f) {two : Option ComponentId}
    (htwo : ∀ i ∈ two, d.Signals i (twoLeft n)) (hnone : two = none → n < 2) :
    d.Yields (allowTwo role own two)
      { k with legals := k.legals ++ [(role, take2, fun x => f x && twoLeft n x)] }
      fun _ _ => True := by
  cases two with
  | some i => exact yields_allow_both hk role take2 hown (htwo i rfl)
  | none =>
      have hfew := hnone rfl
      have hsignal : (fun x => f x && twoLeft n x) = fun _ => false := by
        funext x
        have hdrop : (List.range (n + 1)).drop 2 = [] := List.drop_eq_nil_of_le (by simp; omega)
        simp [twoLeft, hdrop]
      rw [hsignal]
      exact (yields_legal_blank hk role take2).discard

theorem yields_score (hk : d.Realizes k) (role : RoleId) (value : Nat) {i : ComponentId}
    {f : Signal} (hi : d.Signals i f) :
    d.Yields (score role value i) { k with goals := k.goals ++ [(role, value, f)] }
      fun _ _ => True :=
  yields_connect_mark hk hi rfl fun hk' hmark =>
    ⟨hk'.legals, hk'.goals.push role value hmark, hk'.terminal⟩

/-- The list of all counts reads as the list of their facts. -/
theorem signals_counts (htidy : d.Tidy) {counts : List ComponentId} (hlength : counts.length = n + 1)
    (hcount : ∀ i ≤ n, d.bases[i]? = some (counts.getD i init)) :
    List.Forall₂ d.Signals counts ((List.range (n + 1)).map fun i x => x.fact i) := by
  rw [List.forall₂_iff_get]
  refine ⟨by rw [hlength, List.length_map, List.length_range], fun i hi hi' => ?_⟩
  have hbase := hcount i (by omega)
  have hid : counts.getD i init = counts.get ⟨i, hi⟩ := by simp [hi]
  have hsignal := htidy.signals_fact hbase
  rw [hid] at hsignal
  simpa using hsignal

theorem yields_hasTwo (hk : d.Realizes k) {counts : List ComponentId}
    (hcounts : List.Forall₂ d.Signals counts ((List.range (n + 1)).map fun i x => x.fact i)) :
    d.Yields (hasTwo n counts) k fun two d' =>
      (∀ i ∈ two, d'.Signals i (twoLeft n)) ∧ (two = none → n < 2) := by
  rw [hasTwo]
  split
  · rename_i hn
    have hdrop := List.forall₂_drop 2 hcounts
    have hlength : counts.length = n + 1 := by
      rw [hcounts.length_eq, List.length_map, List.length_range]
    have hne : counts.drop 2 ≠ [] := by
      rw [← List.length_pos_iff, List.length_drop]
      omega
    refine (yields_or hk hdrop hne).bind fun i d' _ hk' hi => .pure hk' ⟨fun j hj => ?_, nofun⟩
    obtain rfl := Option.some.inj hj
    refine hi.congr fun x => ?_
    rw [← List.map_drop, List.any_map]
    rfl
  · rename_i hn
    exact .pure hk ⟨nofun, fun _ => Nat.not_le.mp hn⟩

theorem yields_roleOf (hk : d.Realizes k) (role : RoleId) {own other isEmpty notEmpty : ComponentId}
    {f g : Signal} (hown : d.Signals own f) (hother : d.Signals other g)
    (hempty : d.Signals isEmpty fun x => x.fact 0)
    (hnotEmpty : d.Signals notEmpty fun x => !x.fact 0) {two : Option ComponentId}
    (htwo : ∀ i ∈ two, d.Signals i (twoLeft n)) (hnone : two = none → n < 2) :
    d.Yields (roleOf role own other isEmpty notEmpty two)
      { k with
        legals := k.legals ++ roleLegals n role f g
        goals := k.goals ++ roleGoals role g } fun _ _ => True := by
  rw [roleOf]
  refine (yields_allow_both hk role take1 hown hnotEmpty).bind fun _ d₁ hg₁ hk₁ _ => ?_
  refine (yields_allowTwo hk₁ role (hown.mono hg₁) (fun i hi => (htwo i hi).mono hg₁) hnone).bind
    fun _ d₂ hg₂ hk₂ _ => ?_
  have hg := hg₁.trans hg₂
  refine (yields_allow_both hk₂ role .noop (hother.mono hg) (hnotEmpty.mono hg)).bind
    fun _ d₃ hg₃ hk₃ _ => ?_
  have hg := hg.trans hg₃
  have hconditions : List.Forall₂ d₃.Signals [isEmpty, other] [fun x => x.fact 0, g] :=
    .cons (hempty.mono hg) (.cons (hother.mono hg) .nil)
  refine (yields_and hk₃ hconditions (List.cons_ne_nil _ _)).bind fun won d₄ _ hk₄ hwon => ?_
  have hwon : d₄.Signals won fun x => x.fact 0 && g x := hwon.congr fun x => by simp
  refine (yields_score hk₄ role 100 hwon).bind fun _ d₅ hg₅ hk₅ _ => ?_
  refine (yields_not hk₅ (hwon.mono hg₅)).bind fun lost d₆ _ hk₆ hlost => ?_
  have hscore := yields_score hk₆ role 0 hlost
  simp only [List.append_assoc] at hscore
  exact hscore

/-! ### The whole net -/

theorem yields_draft (n : Nat) :
    (Draft.new ["white", "black"]).Yields (draft n) (sketch n) fun _ _ => True := by
  rw [draft]
  refine (yields_bases (realizes_new _) (fun _ _ => rfl) (fun k => s!"count_{k}") _).bind
    fun counts d₁ _ hk₁ hall => ?_
  obtain ⟨hlength, hcounts⟩ := hall
  refine (yields_base hk₁ rfl "control_white").bind fun controlWhite d₂ hg₂ hk₂ hwhite => ?_
  refine (yields_base hk₂ rfl "control_black").bind fun controlBlack d₃ hg₃ hk₃ hblack => ?_
  refine (yields_takes hk₃).bind fun t d₄ hg₄ hk₄ ht => ?_
  have hpile : d₄.Realizes (pileSketch n 0) := by
    rw [pileSketch_zero]
    exact hk₄
  have hcount : ∀ i ≤ n, d₄.bases[i]? = some (counts.getD i init) := by
    intro i hi
    have hlt : i < counts.length := by
      rw [hlength, List.length_range]
      exact Nat.lt_succ_of_le hi
    have hid : counts[i]? = some (counts.getD i init) := by
      rw [List.getD_eq_getElem?_getD, List.getElem?_eq_getElem hlt]
      rfl
    have hbase := hcounts i _ hid
    rw [Sketch.new, List.length_nil, Nat.zero_add] at hbase
    exact ((hg₂.trans hg₃).trans hg₄).bases i _ hbase
  have hloop : d₄.Yields ((List.range (n + 1)).forM (pileOf n (fun i => counts.getD i init) t))
      (pileSketch n (n + 1)) fun _ _ => True := by
    refine .forM_range hpile fun j hj d' hg hk => ?_
    rw [← feed_pileSketch]
    exact yields_pileOf hk (fun i hi => hg.bases i _ (hcount i hi)) (ht.mono hg)
      (Nat.le_of_lt_succ hj) (if_neg (Nat.lt_irrefl j))
  refine hloop.bind fun _ d₅ hg₅ hk₅ _ => ?_
  have hcount : ∀ i ≤ n, d₅.bases[i]? = some (counts.getD i init) :=
    fun i hi => hg₅.bases i _ (hcount i hi)
  have hwhite : d₅.bases[turnFact n white]? = some controlWhite := by
    apply ((hg₃.trans hg₄).trans hg₅).bases
    simpa [Sketch.new] using hwhite
  have hblack : d₅.bases[turnFact n black]? = some controlBlack := by
    apply (hg₄.trans hg₅).bases
    simpa [Sketch.new] using hblack
  have hsources : List.Forall₂ d₅.Signals [init, controlBlack] [Situation.start, blackTurn n] :=
    .cons hk₅.tidy.signals_init (.cons (hk₅.tidy.signals_fact hblack) .nil)
  refine (yields_or hk₅ hsources (List.cons_ne_nil _ _)).bind fun whiteNext d₆ hg₆ hk₆ hnext => ?_
  have hnext : d₆.Signals whiteNext fun x => x.start || blackTurn n x := hnext.congr fun x => by simp
  have hfreeWhite : (pileSketch n (n + 1)).feeds (turnFact n white) = none := by simp [pileSketch]
  refine (yields_next hk₆ (hg₆.bases _ _ hwhite) hfreeWhite hnext).discard.bind
    fun _ d₇ hg₇ hk₇ _ => ?_
  have hg := hg₆.trans hg₇
  have hfreeBlack : ((pileSketch n (n + 1)).feed (turnFact n white) fun x =>
      x.start || blackTurn n x).feeds (turnFact n black) = none := by
    simp [Sketch.feed, pileSketch]
  refine (yields_next hk₇ (hg.bases _ _ hblack) hfreeBlack
    (hk₇.tidy.signals_fact (hg.bases _ _ hwhite))).discard.bind fun _ d₈ hg₈ hk₈ _ => ?_
  have hg := hg.trans hg₈
  have hempty := hk₈.tidy.signals_fact (hg.bases _ _ (hcount 0 (Nat.zero_le n)))
  refine (yields_not hk₈ hempty).bind fun notEmpty d₉ hg₉ hk₉ hnotEmpty => ?_
  have hg := hg.trans hg₉
  have hlength : counts.length = n + 1 := by rw [hlength, List.length_range]
  have hcounts := signals_counts hk₉.tidy hlength fun i hi => hg.bases i _ (hcount i hi)
  refine (yields_hasTwo hk₉ hcounts).bind fun two d₁₀ hg₁₀ hk₁₀ hmoves => ?_
  obtain ⟨htwo, hnone⟩ := hmoves
  have hg := hg.trans hg₁₀
  have hempty := hempty.mono (hg₉.trans hg₁₀)
  have hnotEmpty := hnotEmpty.mono hg₁₀
  have hwhite : d₁₀.Signals controlWhite (whiteTurn n) :=
    hk₁₀.tidy.signals_fact (hg.bases _ _ hwhite)
  have hblack : d₁₀.Signals controlBlack (blackTurn n) :=
    hk₁₀.tidy.signals_fact (hg.bases _ _ hblack)
  refine (yields_roleOf hk₁₀ white hwhite hblack hempty hnotEmpty htwo hnone).bind
    fun _ d₁₁ hg₁₁ hk₁₁ _ => ?_
  refine (yields_roleOf hk₁₁ black (hblack.mono hg₁₁) (hwhite.mono hg₁₁) (hempty.mono hg₁₁)
    (hnotEmpty.mono hg₁₁) (fun i hi => (htwo i hi).mono hg₁₁) hnone).bind fun _ d₁₂ hg₁₂ hk₁₂ _ => ?_
  exact yields_terminal hk₁₂ (hempty.mono (hg₁₁.trans hg₁₂))

end

end GeneralGame.Nim
