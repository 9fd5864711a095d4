import GeneralGame.Proofs.Draft.Extend

/-!
The steps of a draft and the sketches that they lead to.
-/
namespace GeneralGame.Draft

variable {d d' : Draft} {k k' : Sketch} {id i : ComponentId} {c : Component} {f g : Signal}
variable {α β : Type}

/-! ### Runs of steps -/

/-- A run of `p` on `d` grows it to a draft that realizes `k`, with a result as `post` tells. -/
structure Yields (d : Draft) (p : Drafting α) (k : Sketch) (post : α → Draft → Prop) : Prop where
  grows : d.Grows (p.run d).2
  realizes : (p.run d).2.Realizes k
  result : post (p.run d).1 (p.run d).2

theorem Yields.of_run {p : Drafting α} {post : α → Draft → Prop} {a : α} (hrun : p.run d = (a, d'))
    (hg : d.Grows d') (hk : d'.Realizes k) (ha : post a d') : d.Yields p k post := by
  constructor
  · rw [hrun]
    exact hg
  · rw [hrun]
    exact hk
  · rw [hrun]
    exact ha

theorem Yields.pure {post : α → Draft → Prop} {a : α} (hk : d.Realizes k) (ha : post a d) :
    d.Yields (Pure.pure a) k post :=
  ⟨.refl d, hk, ha⟩

theorem Yields.bind {p : Drafting α} {q : α → Drafting β} {mid : α → Draft → Prop}
    {post : β → Draft → Prop} (hp : d.Yields p k mid)
    (hq : ∀ a d', d.Grows d' → d'.Realizes k → mid a d' → d'.Yields (q a) k' post) :
    d.Yields (p >>= q) k' post := by
  have hrest := hq (p.run d).1 (p.run d).2 hp.grows hp.realizes hp.result
  exact ⟨hp.grows.trans hrest.grows, hrest.realizes, hrest.result⟩

theorem Yields.imp {p : Drafting α} {post post' : α → Draft → Prop} (hp : d.Yields p k post)
    (h : ∀ a d', d'.Realizes k → post a d' → post' a d') : d.Yields p k post' :=
  ⟨hp.grows, hp.realizes, h _ _ hp.realizes hp.result⟩

theorem Yields.discard {p : Drafting α} {post : α → Draft → Prop} (hp : d.Yields p k post) :
    d.Yields (Functor.discard p) k fun _ _ => True :=
  ⟨hp.grows, hp.realizes, trivial⟩

/-- A loop goes through the sketches that its rounds lead to. -/
theorem Yields.forM_range {n : Nat} {body : Nat → Drafting Unit} {sketch : Nat → Sketch}
    (h : d.Realizes (sketch 0))
    (hbody : ∀ j < n, ∀ d', d.Grows d' → d'.Realizes (sketch j) →
      d'.Yields (body j) (sketch (j + 1)) fun _ _ => True) :
    d.Yields ((List.range n).forM body) (sketch n) fun _ _ => True := by
  induction n with
  | zero => exact .pure h trivial
  | succ n ih =>
      have hinit := ih fun j hj => hbody j (Nat.lt_succ_of_lt hj)
      rw [List.range_succ, List.forM_eq_forM, List.forM_append, List.forM_cons, List.forM_nil]
      refine hinit.bind fun _ d' hg hk _ => ?_
      exact (hbody n (Nat.lt_succ_self n) d' hg hk).bind fun _ _ _ hk' _ => .pure hk' trivial

/-! ### Gates -/

theorem value_of_forall₂ {ids : List ComponentId} {fs : List Signal}
    (h : List.Forall₂ d.Signals ids fs) {x : Situation} {v : ComponentId → Bool}
    (hv : d.Solves x v) : ids.map v = fs.map fun f => f x := by
  induction h with
  | nil => rfl
  | cons hid _ ih => rw [List.map_cons, List.map_cons, hid.value x v hv, ih]

theorem source_of_forall₂ {ids : List ComponentId} {fs : List Signal}
    (h : List.Forall₂ d.Signals ids fs) : ∀ i ∈ ids, d.IsSource i := by
  induction h with
  | nil => exact nofun
  | cons hid _ ih =>
      rw [List.forall_mem_cons]
      exact ⟨hid.source, ih⟩

theorem output_and {ids : List ComponentId} {fs : List Signal}
    (h : List.Forall₂ d.Signals ids fs) {x : Situation} {v : ComponentId → Bool}
    (hv : d.Solves x v) : Component.output ⟨.and, ids, none⟩ v = fs.all fun f => f x := by
  have hvalues := congrArg (fun values => values.all id) (value_of_forall₂ h hv)
  change ids.all v = _
  simpa using hvalues

theorem output_or {ids : List ComponentId} {fs : List Signal}
    (h : List.Forall₂ d.Signals ids fs) {x : Situation} {v : ComponentId → Bool}
    (hv : d.Solves x v) : Component.output ⟨.or, ids, none⟩ v = fs.any fun f => f x := by
  have hvalues := congrArg (fun values => values.any id) (value_of_forall₂ h hv)
  change ids.any v = _
  simpa using hvalues

theorem Signals.of_gate (hc : d.component? id = some c) (hkind : c.kind ≠ .proposition)
    (hinner : ¬ d.IsOutside id) (hvalue : ∀ x v, d.Solves x v → c.output v = g x) :
    d.Signals id g :=
  ⟨⟨lt_of_component? hc, fun x v hv => (hv.inner id c hc hinner).trans (hvalue x v hv)⟩,
    .inr ⟨c, hc, hkind⟩⟩

/-- A gate that reads sources signals what it computes from them. -/
theorem yields_gate (kind : ComponentKind) {sources : List ComponentId} (hk : d.Realizes k)
    (hkind : kind ≠ .proposition) (hsources : ∀ i ∈ sources, d.IsSource i)
    (hcount : (Net.expectedInputs kind false).admits sources.length = true)
    (hvalue : ∀ x v, d.Solves x v → Component.output ⟨kind, sources, none⟩ v = g x) :
    d.Yields (addGate kind sources) k fun id d' =>
      d'.Signals id g ∧ d'.component? id = some ⟨kind, sources, none⟩ := by
  have hlt : ∀ i ∈ sources, i < d.size := fun i hi => (hsources i hi).lt hk.tidy
  have hgrows := d.grows_extend [⟨kind, sources, none⟩]
  have hnew := component?_extend_size d ⟨kind, sources, none⟩ []
  have hfits : ∀ i c, [Component.mk kind sources none][i]? = some c →
      (d.extend [⟨kind, sources, none⟩]).Fits (d.size + i) c :=
    forall_getElem?_singleton ⟨fun i hi => (hsources i hi).mono hgrows, fun _ => hlt, hcount⟩
  have hinner := hk.tidy.not_isOutside_new [⟨kind, sources, none⟩] 0
  refine .of_run (addGate_run hlt) hgrows (hk.extend hfits) ⟨?_, hnew⟩
  exact .of_gate hnew hkind hinner fun x v hv => hvalue x v (hgrows.solves x v hv)

theorem yields_and (hk : d.Realizes k) {ids : List ComponentId} {fs : List Signal}
    (hids : List.Forall₂ d.Signals ids fs) (hne : ids ≠ []) :
    d.Yields (and ids) k fun id d' => d'.Signals id fun x => fs.all fun f => f x := by
  have hcount : (Net.expectedInputs .and false).admits ids.length = true :=
    decide_eq_true (List.length_pos_iff.mpr hne)
  have hgate := yields_gate .and hk nofun (source_of_forall₂ hids) hcount fun _ _ => output_and hids
  exact hgate.imp fun _ _ _ h => h.1

theorem yields_or (hk : d.Realizes k) {ids : List ComponentId} {fs : List Signal}
    (hids : List.Forall₂ d.Signals ids fs) (hne : ids ≠ []) :
    d.Yields (or ids) k fun id d' => d'.Signals id fun x => fs.any fun f => f x := by
  have hcount : (Net.expectedInputs .or false).admits ids.length = true :=
    decide_eq_true (List.length_pos_iff.mpr hne)
  have hgate := yields_gate .or hk nofun (source_of_forall₂ hids) hcount fun _ _ => output_or hids
  exact hgate.imp fun _ _ _ h => h.1

theorem yields_not (hk : d.Realizes k) (hi : d.Signals i f) :
    d.Yields (not i) k fun id d' => d'.Signals id fun x => !f x := by
  have hsource := List.forall_mem_singleton.mpr hi.source
  have hvalue : ∀ x v, d.Solves x v → Component.output ⟨.not, [i], none⟩ v = !f x :=
    fun x v hv => congrArg Bool.not (hi.value x v hv)
  exact (yields_gate .not hk nofun hsource rfl hvalue).imp fun _ _ _ h => h.1

/-- A fact that is fed a signal follows where the signal holds. -/
theorem yields_next (hk : d.Realizes k) {n : FactId} (hid : d.bases[n]? = some id)
    (hfree : k.feeds n = none) (hi : d.Signals i f) :
    d.Yields (next id i) (k.feed n f) fun _ _ => True := by
  have hgate : d.Yields (addGate .transition [i]) k fun t d' => d'.Carries t f := by
    have hsource := List.forall_mem_singleton.mpr hi.source
    have hvalue : ∀ x v, d.Solves x v → Component.output ⟨.transition, [i], none⟩ v = f x := hi.value
    exact (yields_gate .transition hk nofun hsource rfl hvalue).imp fun _ _ _ h => ⟨h.1, _, h.2, rfl⟩
  refine hgate.bind fun t d' hgrows hk' ht => ?_
  have hid' := hgrows.bases n id hid
  have houtside := isOutside_base hid'
  have hrun : (connect t id >>= fun _ => Pure.pure t).run d' = (t, d'.wire id [t]) := by
    rw [StateT.run_bind, connect_run ht.lt (hk'.tidy.outside_lt houtside)]
    rfl
  exact .of_run hrun (grows_wire houtside [t]) (hk'.feed hid' hfree ht) trivial

/-! ### Declarations -/

/-- A new proposition that is set from outside. -/
theorem Tidy.add_outside (h : d.Tidy) {name : Option String} (hgrows : d.Grows d')
    (hcomponents : d'.components = d.components ++ [Component.mk .proposition [] name])
    (houtside : d'.outsideIds.Perm (d.size :: d.outsideIds)) (hconnected : d'.dangling = d.dangling) :
    d'.Tidy := by
  have hcomponent : ∀ id, d'.component? id = (d.extend [⟨.proposition, [], name⟩]).component? id := by
    intro id
    rw [component?, hcomponents]
    rfl
  have hnew : d'.component? d.size = some ⟨.proposition, [], name⟩ := by
    rw [hcomponent]
    exact component?_extend_size d _ []
  constructor
  · exact hconnected.trans h.connected
  · refine houtside.nodup_iff.mpr (List.nodup_cons.mpr ⟨fun hmem => ?_, h.distinct⟩)
    exact Nat.lt_irrefl _ (h.outside_lt hmem)
  · intro id hid
    rcases List.mem_cons.mp (houtside.mem_iff.mp hid) with rfl | hid
    · exact ⟨_, hnew, rfl, fun _ => rfl⟩
    · obtain ⟨c, hc, hkind, hinputs⟩ := h.outside id hid
      refine ⟨c, ?_, hkind, fun hother => hinputs fun hbase => hother ?_⟩
      · rw [hcomponent, component?_extend_of_some hc]
      · obtain ⟨n, hn⟩ := Array.mem_iff_getElem?.mp hbase
        exact Array.mem_of_getElem? (hgrows.bases n id hn)
  · intro id c hc hinner
    have hne : id ≠ d.size := by
      rintro rfl
      exact hinner (houtside.mem_iff.mpr List.mem_cons_self)
    have hlt : id < d.size := by
      have hsize := lt_of_component? hc
      have hsucc : d'.size = d.size + 1 := by
        rw [size, hcomponents]
        exact Array.size_push _
      rw [hsucc] at hsize
      exact Nat.lt_of_le_of_ne (Nat.le_of_lt_succ hsize) hne
    rw [hcomponent, component?_extend_of_lt hlt] at hc
    have hold : ¬ d.IsOutside id :=
      fun hid => hinner (houtside.mem_iff.mpr (List.mem_cons_of_mem _ hid))
    exact (h.inner id c hc hold).mono hgrows

theorem yields_base (hk : d.Realizes k) (hfree : k.feeds k.facts.length = none) (name : String) :
    d.Yields (base name) { k with facts := k.facts ++ [name] } fun id d' =>
      d'.bases[k.facts.length]? = some id := by
  let d' := { d.extend [⟨.proposition, [], some name⟩] with bases := d.bases.push d.size }
  have hrun : (base name).run d = (d.size, d') := rfl
  have hcomponent := component?_extend_size d ⟨.proposition, [], some name⟩ []
  have houtside : d'.outsideIds.Perm (d.size :: d.outsideIds) := by
    have hbases : d'.bases.toList = d.bases.toList ++ [d.size] := Array.toList_push
    change (init :: d'.bases.toList ++ _).Perm (d.size :: (init :: d.bases.toList ++ _))
    rw [hbases, List.cons_append, List.append_assoc]
    exact .trans (.cons _ List.perm_middle) (.swap _ _ _)
  have hgrows : d.Grows d' := by
    refine grows_of_extend rfl ⟨[d.size], Array.toList_push⟩ ⟨[], (List.append_nil _).symm⟩
      fun id hlt hid => ?_
    exact (List.mem_cons.mp (houtside.mem_iff.mp hid)).resolve_left (Nat.ne_of_lt hlt)
  have hsize : (d.bases.push d.size).size = (k.facts ++ [name]).length := by
    rw [Array.size_push, List.length_append, hk.size]
    rfl
  have hfirst : d'.bases[k.facts.length]? = some d.size := by
    rw [← hk.size]
    exact Array.getElem?_push_size
  refine .of_run hrun hgrows ?_ hfirst
  constructor
  · exact hk.tidy.add_outside hgrows rfl houtside rfl
  · exact hk.roles
  · exact hsize
  · intro n id hid
    change (d.bases.push d.size)[n]? = some id at hid
    rw [Array.getElem?_push] at hid
    split at hid
    · rename_i hn
      obtain rfl := Option.some.inj hid
      refine ⟨_, hcomponent, ?_, ?_⟩
      · rw [hn, hk.size, List.getElem?_concat_length]
      · rw [hn, hk.size, hfree]
        exact .nil
    · have hold := hk.tidy.signals_fact hid
      have hlt : n < k.facts.length := hk.size ▸ (Array.getElem?_eq_some_iff.mp hid).1
      rw [List.getElem?_append_left hlt]
      exact (hk.facts n id hid).mono hgrows (component?_extend_of_lt hold.lt _)
  · exact hk.inputs
  · exact hk.legals.mono hgrows
  · exact hk.goals.mono hgrows
  · exact hk.terminal.imp fun _ _ ht => ht.mono hgrows

theorem yields_input (hk : d.Realizes k) (role : RoleId) (m : Move) :
    d.Yields (input role m) { k with inputs := k.inputs ++ [(role, m)] } fun id d' =>
      d'.Signals id fun x => x.does role m := by
  let d' := { d.extend [⟨.proposition, [], some s!"does {role.index} {m.name}"⟩] with
    inputs := d.inputs.push (role, m, d.size) }
  have hrun : (input role m).run d = (d.size, d') := rfl
  have hinputs : d'.inputs.toList = d.inputs.toList ++ [(role, m, d.size)] := Array.toList_push
  have houtside : d'.outsideIds.Perm (d.size :: d.outsideIds) := by
    rw [outsideIds, outsideIds, hinputs, List.map_append, ← List.append_assoc]
    exact List.perm_append_singleton _ _
  have hgrows : d.Grows d' := by
    refine grows_of_extend rfl ⟨[], (List.append_nil _).symm⟩ ⟨_, hinputs⟩ fun id hlt hid => ?_
    exact (List.mem_cons.mp (houtside.mem_iff.mp hid)).resolve_left (Nat.ne_of_lt hlt)
  have htidy := hk.tidy.add_outside hgrows rfl houtside rfl
  have hmem : (role, m, d.size) ∈ d'.inputs := Array.mem_push_self
  have hsignal : d'.Signals d.size fun x => x.does role m :=
    ⟨⟨htidy.outside_lt (isOutside_input hmem), fun x v hv => hv.does role m d.size hmem⟩,
      .inl (isOutside_input hmem)⟩
  refine .of_run hrun hgrows ?_ hsignal
  constructor
  · exact htidy
  · exact hk.roles
  · exact hk.size
  · intro n id hid
    have hold := hk.tidy.signals_fact hid
    exact (hk.facts n id hid).mono hgrows (component?_extend_of_lt hold.lt _)
  · rw [hinputs, List.map_append, hk.inputs]
    rfl
  · exact hk.legals.mono hgrows
  · exact hk.goals.mono hgrows
  · exact hk.terminal.imp fun _ _ ht => ht.mono hgrows

theorem yields_bases (hk : d.Realizes k) (hfree : ∀ n, k.facts.length ≤ n → k.feeds n = none)
    (name : α → String) (xs : List α) :
    d.Yields (xs.mapM fun x => base (name x)) { k with facts := k.facts ++ xs.map name }
      fun ids d' => ids.length = xs.length ∧
        ∀ (i : Nat) id, ids[i]? = some id → d'.bases[k.facts.length + i]? = some id := by
  induction xs generalizing d k with
  | nil =>
      have hfacts : { k with facts := k.facts ++ [].map name } = k := by simp
      rw [List.mapM_nil, hfacts]
      exact .pure hk ⟨rfl, nofun⟩
  | cons x xs ih =>
      rw [List.mapM_cons]
      refine (yields_base hk (hfree _ (Nat.le_refl _)) (name x)).bind fun first d₁ _ hk₁ hfirst => ?_
      have hlength : (k.facts ++ [name x]).length = k.facts.length + 1 := List.length_append
      have hfree₁ : ∀ n, (k.facts ++ [name x]).length ≤ n → k.feeds n = none := by
        intro n hn
        rw [hlength] at hn
        exact hfree n (Nat.le_of_succ_le hn)
      have hrest := ih hk₁ hfree₁
      rw [List.append_assoc] at hrest
      refine hrest.bind fun rest d₂ hg₂ hk₂ ⟨hcount, hids⟩ => .pure hk₂ ⟨?_, fun i id hi => ?_⟩
      · rw [List.length_cons, List.length_cons, hcount]
      · cases i with
        | zero =>
            obtain rfl := Option.some.inj hi
            exact hg₂.bases _ _ hfirst
        | succ i =>
            have hid := hids i id hi
            rw [hlength, Nat.add_assoc, Nat.add_comm 1] at hid
            exact hid

theorem Declares.push {es : Array (RoleId × α × ComponentId)} {ss : List (RoleId × α × Signal)}
    (h : d.Declares es.toList ss) (role : RoleId) (a : α) (hid : d.Computes id f) :
    d.Declares (es.push (role, a, id)).toList (ss ++ [(role, a, f)]) := by
  rw [Array.toList_push]
  exact List.rel_append h (.cons ⟨rfl, rfl, hid⟩ .nil)

/-- Declarations change none of the components. -/
theorem grows_declare (d : Draft) (legals : Array (RoleId × Move × ComponentId))
    (goals : Array (RoleId × Nat × ComponentId)) (terminal : Option ComponentId) :
    d.Grows { d with legals, goals, terminal } :=
  ⟨fun _ _ h => h, fun _ h => h, fun _ c h => ⟨c, h, rfl⟩,
    fun _ _ hv => ⟨hv.start, hv.fact, hv.does, hv.inner⟩⟩

theorem Realizes.declare (hk : d.Realizes k) {legals : Array (RoleId × Move × ComponentId)}
    {goals : Array (RoleId × Nat × ComponentId)} {terminal : Option ComponentId}
    {ls : List (RoleId × Move × Signal)} {gs : List (RoleId × Nat × Signal)} {t : Option Signal}
    (hlegals : d.Declares legals.toList ls) (hgoals : d.Declares goals.toList gs)
    (hterminal : List.Forall₂ d.Computes terminal.toList t.toList) :
    { d with legals, goals, terminal }.Realizes { k with legals := ls, goals := gs, terminal := t } := by
  have hgrows := d.grows_declare legals goals terminal
  have htidy : { d with legals, goals, terminal }.Tidy :=
    ⟨hk.tidy.connected, hk.tidy.distinct, hk.tidy.outside,
      fun id c hc hinner => (hk.tidy.inner id c hc hinner).mono hgrows⟩
  exact ⟨htidy, hk.roles, hk.size, fun n id hid => (hk.facts n id hid).mono hgrows rfl, hk.inputs,
    hlegals.mono hgrows, hgoals.mono hgrows, hterminal.imp fun _ _ ht => ht.mono hgrows⟩

/-- A new mark, with what comes after it, tells what the source tells that it is connected to. -/
theorem Realizes.extend_mark (hk : d.Realizes k) {name : Option String} {cs : List Component}
    (hi : (d.extend (⟨.proposition, [i], name⟩ :: cs)).Signals i f)
    (hrest : ∀ j c, cs[j]? = some c →
      (d.extend (⟨.proposition, [i], name⟩ :: cs)).Fits (d.size + (j + 1)) c) :
    (d.extend (⟨.proposition, [i], name⟩ :: cs)).Realizes k ∧
      (d.extend (⟨.proposition, [i], name⟩ :: cs)).Computes d.size f := by
  have hnew := component?_extend_size d ⟨.proposition, [i], name⟩ cs
  refine ⟨hk.extend fun j c hc => ?_, lt_of_component? hnew, fun x v hv => ?_⟩
  · cases j with
    | zero =>
        obtain rfl := Option.some.inj hc
        exact ⟨List.forall_mem_singleton.mpr hi.source, fun h => absurd rfl h, rfl⟩
    | succ j => exact hrest j c hc
  · rw [hv.inner _ _ hnew (hk.tidy.not_isOutside_new _ 0)]
    exact hi.value x v hv

/-- A mark that is connected to nothing never holds. -/
theorem Realizes.extend_blank (hk : d.Realizes k) (name : Option String) :
    (d.extend [⟨.proposition, [], name⟩]).Realizes k ∧
      (d.extend [⟨.proposition, [], name⟩]).Computes d.size fun _ => false := by
  have hnew := component?_extend_size d ⟨.proposition, [], name⟩ []
  refine ⟨hk.extend (forall_getElem?_singleton ⟨nofun, nofun, rfl⟩), lt_of_component? hnew,
    fun x v hv => ?_⟩
  rw [hv.inner _ _ hnew (hk.tidy.not_isOutside_new _ 0)]
  rfl

/-- A step that declares a mark, and a connection to it. -/
theorem yields_connect_mark (hk : d.Realizes k) (hi : d.Signals i f) {p : Drafting ComponentId}
    {name : Option String} {legals : Array (RoleId × Move × ComponentId)}
    {goals : Array (RoleId × Nat × ComponentId)} {terminal : Option ComponentId}
    {ls : List (RoleId × Move × Signal)} {gs : List (RoleId × Nat × Signal)} {t : Option Signal}
    (hp : p.run d = (d.size, { d.extend [⟨.proposition, [], name⟩] with legals, goals, terminal }))
    (hdeclares : (d.extend [⟨.proposition, [i], name⟩]).Realizes k →
      (d.extend [⟨.proposition, [i], name⟩]).Computes d.size f →
        (d.extend [⟨.proposition, [i], name⟩]).Declares legals.toList ls ∧
        (d.extend [⟨.proposition, [i], name⟩]).Declares goals.toList gs ∧
        List.Forall₂ (d.extend [⟨.proposition, [i], name⟩]).Computes terminal.toList t.toList) :
    d.Yields (p >>= fun mark => connect i mark) { k with legals := ls, goals := gs, terminal := t }
      fun _ _ => True := by
  let e := d.extend [⟨.proposition, [i], name⟩]
  have hrun : (p >>= fun mark => connect i mark).run d =
      ((), { e with legals, goals, terminal }) := by
    have hsize : (d.extend [⟨.proposition, [], name⟩]).size = d.size + 1 := Array.size_push _
    have hlt : i < d.size := hi.lt
    have hconnect := @connect_run { d.extend [⟨.proposition, [], name⟩] with legals, goals, terminal }
      i d.size (hsize ▸ Nat.lt_succ_of_lt hlt) (hsize ▸ Nat.lt_succ_self _)
    rw [StateT.run_bind, hp]
    refine hconnect.trans (congrArg (Prod.mk ()) ?_)
    exact congrArg (fun d' => { d' with legals, goals, terminal }) (wire_extend d _ [] [i])
  have hgrows : d.Grows e := d.grows_extend _
  obtain ⟨hk', hmark⟩ := hk.extend_mark (hi.mono hgrows) nofun
  obtain ⟨hlegals, hgoals, hterminal⟩ := hdeclares hk' hmark
  exact .of_run hrun (hgrows.trans (e.grows_declare _ _ _)) (hk'.declare hlegals hgoals hterminal)
    trivial

theorem yields_terminal (hk : d.Realizes k) (hi : d.Signals i f) :
    d.Yields (terminalMark >>= fun mark => connect i mark) { k with terminal := some f }
      fun _ _ => True :=
  yields_connect_mark hk hi rfl fun hk' hmark => ⟨hk'.legals, hk'.goals, .cons hmark .nil⟩

theorem realizes_new (roles : List String) : (Draft.new roles).Realizes (.new roles) := by
  have houtside : ∀ id, (Draft.new roles).IsOutside id ↔ id = init := fun id => List.mem_singleton
  have honly : ∀ id c, (Draft.new roles).component? id = some c →
      id = init ∧ c = ⟨.proposition, [], some "init"⟩ := by
    intro id c hc
    cases id with
    | zero => exact ⟨rfl, (Option.some.inj hc).symm⟩
    | succ id => cases hc
  refine ⟨⟨rfl, List.pairwise_singleton _ _, fun id hid => ?_, fun id c hc hinner => ?_⟩, rfl, rfl,
    nofun, rfl, .nil, .nil, .nil⟩
  · rw [houtside] at hid
    subst hid
    exact ⟨_, rfl, rfl, fun _ => rfl⟩
  · exact absurd ((houtside id).mpr (honly id c hc).1) hinner

end GeneralGame.Draft
