import GeneralGame.Proofs.Search.Scores
import GeneralGame.Search.Sampling.Ucb

/-!
Which child upper confidence bounds prefer. The choice is the first child of the greatest score,
whatever scores are no numbers. A child that was never visited scores plus infinity, so the first of
these is chosen as long as no other child scores as much.
-/
namespace GeneralGame.Ucb

open Score

/-! ### The first of the greatest scores -/

/-- After some scores, the best one so far and its place. In the beginning that is minus infinity at
place 0; a score takes over only if it is greater. -/
structure Leads (seen : List Float) (best : Nat) (bestScore : Float) : Prop where
  greatest : ∀ x ∈ seen, ¬ bestScore < x
  source : best = 0 ∧ bestScore = minusInfinity ∨
    seen[best]? = some bestScore ∧ bestScore.isNaN = false ∧
      ∀ k < best, ∀ x, seen[k]? = some x → x.isNaN = true ∨ x < bestScore

theorem leads_nil : Leads [] 0 minusInfinity := ⟨List.forall_mem_nil _, .inl ⟨rfl, rfl⟩⟩

variable {seen : List Float} {best : Nat} {bestScore x : Float}

theorem Leads.concat_of_lt (h : Leads seen best bestScore) (hx : bestScore < x) :
    Leads (seen ++ [x]) seen.length x := by
  constructor
  · intro y hy
    rcases List.mem_append.mp hy with hy | hy
    · exact fun hxy => h.greatest y hy (lt_of_lt_of_lt hx hxy)
    · rw [List.mem_singleton.mp hy]
      exact not_lt_self x
  · refine .inr ⟨List.getElem?_concat_length, isNaN_of_lt hx, fun k hk y hy => ?_⟩
    rw [List.getElem?_append_left hk] at hy
    cases hnumber : y.isNaN with
    | true => exact .inl rfl
    | false =>
        have hle : ¬ bestScore < y := h.greatest y (List.mem_of_getElem? hy)
        exact .inr (lt_of_not_lt_of_lt hnumber hle hx)

theorem Leads.concat_of_not_lt (h : Leads seen best bestScore) (hx : ¬ bestScore < x) :
    Leads (seen ++ [x]) best bestScore := by
  constructor
  · intro y hy
    rcases List.mem_append.mp hy with hy | hy
    · exact h.greatest y hy
    · rwa [List.mem_singleton.mp hy]
  · refine h.source.imp_right fun ⟨hbest, hnumber, hfirst⟩ => ?_
    have hlt : best < seen.length := (List.getElem?_eq_some_iff.mp hbest).1
    refine ⟨by rwa [List.getElem?_append_left hlt], hnumber, fun k hk y hy => ?_⟩
    rw [List.getElem?_append_left (hk.trans hlt)] at hy
    exact hfirst k hk y hy

theorem Leads.bestFrom (h : Leads seen best bestScore) (xs : List Float) :
    ∃ score, Leads (seen ++ xs) (bestFrom best bestScore seen.length xs) score := by
  induction xs generalizing seen best bestScore with
  | nil => exact ⟨bestScore, by rwa [List.append_nil]⟩
  | cons x xs ih =>
      rw [List.append_cons, Ucb.bestFrom]
      split
      · rename_i hx
        have hnext := ih (h.concat_of_lt hx)
        rwa [List.length_append] at hnext
      · rename_i hx
        have hnext := ih (h.concat_of_not_lt hx)
        rwa [List.length_append] at hnext

/-- The score at place `i` is exceeded by none, and those before it fall short of it or are no
numbers. It is a number itself unless there is nothing but minus infinity to choose. -/
def IsFirstGreatest (scores : List Float) (i : Nat) : Prop :=
  ∃ x, scores[i]? = some x ∧ (∀ y ∈ scores, ¬ x < y) ∧
    (∀ k < i, ∀ y, scores[k]? = some y → y.isNaN = true ∨ y < x) ∧
    (x.isNaN = true → ∀ y ∈ scores, ¬ minusInfinity < y)

theorem bestFrom_first_greatest {scores : List Float} (hne : scores ≠ []) :
    IsFirstGreatest scores (bestFrom 0 minusInfinity 0 scores) := by
  obtain ⟨score, hgreatest, hsource⟩ := leads_nil.bestFrom scores
  rw [List.nil_append] at hgreatest hsource
  rcases hsource with ⟨hbest, rfl⟩ | ⟨hbest, hnumber, hfirst⟩
  · obtain ⟨x, rest, rfl⟩ := List.exists_cons_of_ne_nil hne
    rw [List.length_nil] at hbest
    rw [hbest]
    refine ⟨x, rfl, fun y hy hxy => ?_, nofun, fun _ => hgreatest⟩
    exact hgreatest y hy (minusInfinity_lt_of_lt hxy)
  · refine ⟨score, hbest, hgreatest, hfirst, fun hnan => ?_⟩
    rw [hnumber] at hnan
    cases hnan

/-! ### The first fresh child -/

/-- The child has no entry, or one that was never visited. -/
def isFresh (child : Option Node) : Bool := !child.any Node.isVisited

variable {parent : Node} {children : List (Option Node)} {c : Float}

theorem score_of_fresh {child : Option Node} (h : isFresh child = true) (n : Nat) (c : Float) :
    score child n c = plusInfinity := by
  cases child with
  | none => rfl
  | some node =>
      have hvisited : node.isVisited = false := by simpa [isFresh] using h
      rw [score, hvisited]
      rfl

/-- What the choice of the first greatest score means for the children. -/
theorem select_first_greatest {chosen : Option Node}
    (hchosen : children[select parent children c]? = some chosen) :
    (∀ child ∈ children, ¬ score chosen parent.visits c < score child parent.visits c) ∧
    (∀ k < select parent children c, ∀ child, children[k]? = some child →
      (score child parent.visits c).isNaN = true ∨
        score child parent.visits c < score chosen parent.visits c) ∧
    ((score chosen parent.visits c).isNaN = true →
      ∀ child ∈ children, ¬ minusInfinity < score child parent.visits c) := by
  have hne : children.map (score · parent.visits c) ≠ [] := by
    intro h
    rw [List.map_eq_nil_iff.mp h] at hchosen
    cases hchosen
  obtain ⟨x, hx, hgreatest, hfirst, hnan⟩ := bestFrom_first_greatest hne
  have hscore : score chosen parent.visits c = x := by
    rw [List.getElem?_map] at hx
    exact Option.some_inj.mp ((congrArg _ hchosen).symm.trans hx)
  rw [hscore]
  refine ⟨fun child hchild => hgreatest _ (List.mem_map_of_mem hchild), ?_,
    fun h child hchild => hnan h _ (List.mem_map_of_mem hchild)⟩
  intro k hk child hchild
  exact hfirst k hk _ (by rw [List.getElem?_map, hchild]; rfl)

/-- Where no visited child scores plus infinity, the first child is chosen that was never visited, if
there is one. Otherwise a child is chosen whose score no other child exceeds, the first of them, even
if some scores are no numbers. -/
theorem select_prefers_fresh (hne : children ≠ [])
    (hbounded : ∀ child ∈ children, isFresh child = false →
      score child parent.visits c ≠ plusInfinity) :
    ((∃ child ∈ children, isFresh child = true) →
      select parent children c = children.findIdx isFresh) ∧
    ((∀ child ∈ children, isFresh child = false) →
      ∃ chosen, children[select parent children c]? = some chosen ∧
        (∀ child ∈ children, ¬ score chosen parent.visits c < score child parent.visits c) ∧
        ∀ k < select parent children c, ∀ child, children[k]? = some child →
          (score child parent.visits c).isNaN = true ∨
            score child parent.visits c < score chosen parent.visits c) := by
  obtain ⟨chosen, hchosen⟩ : ∃ chosen, children[select parent children c]? = some chosen :=
    ⟨_, List.getElem?_eq_getElem (select_lt parent children c hne)⟩
  obtain ⟨hgreatest, hfirst, hnan⟩ := select_first_greatest hchosen
  refine ⟨fun hexists => ?_, fun _ => ⟨chosen, hchosen, hgreatest, hfirst⟩⟩
  obtain ⟨child, hchild, hfresh⟩ := hexists
  have hscore : score child parent.visits c = plusInfinity := score_of_fresh hfresh _ _
  have hnumber : (score chosen parent.visits c).isNaN = false := by
    refine Bool.eq_false_iff.mpr fun h => hnan h child hchild ?_
    rw [hscore]
    exact lt_plusInfinity rfl (by decide)
  have htop : score chosen parent.visits c = plusInfinity := by
    by_contra hlow
    exact hgreatest child hchild (hscore ▸ lt_plusInfinity hnumber hlow)
  have hchosenFresh : isFresh chosen = true := by
    by_contra hvisited
    exact hbounded chosen (List.mem_of_getElem? hchosen) (Bool.eq_false_iff.mpr hvisited) htop
  obtain ⟨hlt, hget⟩ := List.getElem?_eq_some_iff.mp hchosen
  symm
  refine (List.findIdx_eq hlt).mpr ⟨by rwa [hget], fun k hk => ?_⟩
  -- A fresh child before the chosen one scores as much, so the chosen one would not be the first.
  by_contra hearlier
  have htie : score children[k] parent.visits c = plusInfinity :=
    score_of_fresh (Bool.eq_true_of_not_eq_false hearlier) _ _
  rcases hfirst k hk children[k] (List.getElem?_eq_getElem _) with hnan | hless
  · rw [htie] at hnan
    cases hnan
  · rw [htie] at hless
    exact not_plusInfinity_lt _ hless

theorem zero_mul_cases (y : Float) : 0 * y = 0 ∨ 0 * y = -0 ∨ 0 * y = 0 / 0 := by
  have hmul : 0 * y = ⟨.pack (.mul .binary64 (.zero .positive) y.toModel.unpack)⟩ := rfl
  rw [hmul]
  rcases y.toModel.unpack with (_ | _) | _ | (_ | _) | ⟨_ | _, m, e, hm⟩
  · exact .inr (.inr rfl)
  · exact .inr (.inr rfl)
  · exact .inr (.inr rfl)
  · exact .inr (.inl rfl)
  · exact .inl rfl
  · exact .inr (.inl rfl)
  · exact .inl rfl

/-- Without a bonus for exploration, a child of nine visits and mean 100 still comes after one that
is listed and was never visited. -/
theorem select_prefers_fresh_greedy :
    select ⟨10, 500, none⟩ [some ⟨9, 900, none⟩, some Node.new, none] 0 = 1 := by
  have hvisited (n : Nat) : score (some ⟨9, 900, none⟩) n 0 ≠ plusInfinity := by
    obtain ⟨y, hy⟩ : ∃ y, score (some ⟨9, 900, none⟩) n 0 = 900 / 9 + 0 * y := ⟨_, rfl⟩
    rw [hy]
    rcases zero_mul_cases y with h | h | h <;> rw [h] <;> decide +kernel
  refine (select_prefers_fresh (List.cons_ne_nil _ _) fun child hchild hfresh => ?_).1
    ⟨none, by simp, rfl⟩
  simp only [List.mem_cons, List.not_mem_nil, or_false] at hchild
  rcases hchild with rfl | rfl | rfl
  · exact hvisited 10
  · cases hfresh
  · cases hfresh

end GeneralGame.Ucb
