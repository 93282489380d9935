import Mathlib.Data.List.TakeWhile
import WordRole.Text.Runs

/-!
# Where the runs of a text stand

A run of characters of a class begins at a place of the text, and neither the character before it
nor the one after it is of the class (`Text.RunAt`).

* `Text.mem_runsFrom_iff`: the runs that are read off a text with their places are all of these;
* `Text.pairwise_runsFrom`: they are read in the order of their places;
* `Text.pairwise_eraseDups`: of a list with places, what is kept of repeated entries is in the
  order of the first places.
-/

namespace WordRole.Text

variable {p : Char → Bool}

/-- At a place of a text, there is a run of the characters that pass a test: one of them at least,
and all that stand together. -/
def RunAt (p : Char → Bool) (cs : List Char) (i : Nat) (r : List Char) : Prop :=
  ∃ before after, cs = before ++ (r ++ after) ∧ i = before.length ∧ r ≠ [] ∧
    (∀ c ∈ r, p c = true) ∧ (∀ c ∈ before.getLast?, p c = false) ∧
    ∀ c ∈ after.head?, p c = false

/-! ### One run after the other -/

theorem runs_cons_of_neg {c : Char} (h : p c = false) (cs : List Char) :
    runs p (c :: cs) = runs p cs := by
  simp [runs, h]

theorem runs_cons_of_pos {c : Char} (h : p c = true) (cs : List Char) :
    runs p (c :: cs) = (c :: cs.takeWhile p) :: runs p (cs.dropWhile p) := by
  induction cs generalizing c with
  | nil => simp [runs, h]
  | cons d ds ih =>
    cases hd : p d with
    | true =>
      rw [List.takeWhile_cons_of_pos hd, List.dropWhile_cons_of_pos hd, runs, if_pos h, ih hd]
      simp [hd]
    | false =>
      rw [List.takeWhile_cons_of_neg (by simp [hd]), List.dropWhile_cons_of_neg (by simp [hd]),
        runs, if_pos h]
      simp [hd]

/-- the runs of a text with their places, where the text begins at a given one -/
def runsFrom (p : Char → Bool) (i : Nat) : List Char → List (Nat × List Char)
  | [] => []
  | c :: cs =>
    if p c then
      (i, c :: cs.takeWhile p) :: runsFrom p (i + 1 + (cs.takeWhile p).length) (cs.dropWhile p)
    else runsFrom p (i + 1) cs
termination_by cs => cs.length
decreasing_by
  · exact Nat.lt_succ_of_le (List.length_dropWhile_le p cs)
  · exact Nat.lt_succ_self _

theorem map_snd_runsFrom (p : Char → Bool) (i : Nat) (cs : List Char) :
    (runsFrom p i cs).map (·.2) = runs p cs := by
  fun_induction runsFrom p i cs with
  | case1 => rfl
  | case2 i c cs h ih => rw [runs_cons_of_pos h, List.map_cons, ih]
  | case3 i c cs h ih => rw [runs_cons_of_neg (by simpa using h), ih]

/-! ### The places -/

theorem le_of_mem_runsFrom {i j : Nat} {cs r : List Char} (h : (j, r) ∈ runsFrom p i cs) :
    i ≤ j := by
  fun_induction runsFrom p i cs with
  | case1 => simp at h
  | case2 i c cs _ ih =>
    rcases List.mem_cons.mp h with heq | h
    · exact Nat.le_of_eq (Prod.mk.inj heq).1.symm
    · have := ih h
      omega
  | case3 i c cs _ ih => exact Nat.le_of_succ_le (ih h)

theorem pairwise_runsFrom (p : Char → Bool) (i : Nat) (cs : List Char) :
    (runsFrom p i cs).Pairwise (·.1 < ·.1) := by
  fun_induction runsFrom p i cs with
  | case1 => exact .nil
  | case2 i c cs _ ih =>
    refine .cons (fun q hq => ?_) ih
    have := le_of_mem_runsFrom hq
    show i < q.1
    omega
  | case3 i c cs _ ih => exact ih

/-! ### All runs -/

theorem head?_dropWhile (cs : List Char) : ∀ c ∈ (cs.dropWhile p).head?, p c = false := by
  intro c hc
  have := List.head?_dropWhile_not p cs
  rw [Option.mem_def.mp hc] at this
  exact this

theorem takeWhile_append {r after : List Char} (hr : ∀ c ∈ r, p c = true)
    (ha : ∀ c ∈ after.head?, p c = false) : (r ++ after).takeWhile p = r := by
  rw [List.takeWhile_append_of_pos hr]
  cases after with
  | nil => simp
  | cons d ds => rw [List.takeWhile_cons_of_neg (by simp [ha d rfl]), List.append_nil]

theorem runAt_cons_of_neg {c : Char} (hc : p c = false) {cs r : List Char} {i : Nat} :
    RunAt p (c :: cs) i r ↔ ∃ j, i = j + 1 ∧ RunAt p cs j r := by
  constructor
  · rintro ⟨before, after, hcs, rfl, hne, hall, hleft, hright⟩
    cases before with
    | nil =>
      obtain ⟨d, ds, rfl⟩ := List.exists_cons_of_ne_nil hne
      obtain ⟨rfl, -⟩ := List.cons.inj hcs
      rw [hall c List.mem_cons_self] at hc
      cases hc
    | cons d before =>
      obtain ⟨rfl, rfl⟩ := List.cons.inj hcs
      refine ⟨before.length, rfl, before, after, rfl, rfl, hne, hall, fun e he => ?_, hright⟩
      exact hleft e (by rw [List.getLast?_cons, Option.mem_def.mp he]; rfl)
  · rintro ⟨j, rfl, before, after, rfl, rfl, hne, hall, hleft, hright⟩
    refine ⟨c :: before, after, rfl, rfl, hne, hall, fun e he => ?_, hright⟩
    rw [List.getLast?_cons, Option.mem_some_iff] at he
    cases hl : before.getLast? with
    | none => rw [hl] at he; exact he ▸ hc
    | some d => rw [hl] at he; exact he ▸ hleft d hl

/-- After a run at the beginning of a text, the others are those of what follows it. -/
theorem runAt_append {w rest : List Char} (hne : w ≠ []) (hw : ∀ c ∈ w, p c = true)
    (hrest : ∀ c ∈ rest.head?, p c = false) {r : List Char} {i : Nat} :
    RunAt p (w ++ rest) i r ↔
      (i = 0 ∧ r = w) ∨ ∃ j, i = w.length + j ∧ RunAt p rest j r := by
  constructor
  · rintro ⟨before, after, hcs, rfl, hr, hall, hleft, hright⟩
    rcases List.append_eq_append_iff.mp hcs with ⟨mid, rfl, rfl⟩ | ⟨mid, rfl, hafter⟩
    · refine .inr ⟨mid.length, List.length_append, mid, after, rfl, rfl, hr, hall, ?_, hright⟩
      intro c hc
      exact hleft c (by rw [List.getLast?_append, Option.mem_def.mp hc]; rfl)
    · -- the run begins in `w`, so it begins with it
      have hnil : before = [] := by
        cases hl : before.getLast? with
        | none => exact List.getLast?_eq_none_iff.mp hl
        | some c =>
          have hc := hw c (List.mem_append_left _ (List.mem_of_getLast? hl))
          rw [hleft c hl] at hc
          cases hc
      subst hnil
      refine .inl ⟨rfl, ?_⟩
      rw [List.nil_append] at hw ⊢
      rw [← takeWhile_append hall hright, hafter, takeWhile_append hw hrest]
  · rintro (⟨rfl, rfl⟩ | ⟨j, rfl, before, after, rfl, rfl, hr, hall, hleft, hright⟩)
    · exact ⟨[], rest, rfl, rfl, hne, hw, by simp, hrest⟩
    · refine ⟨w ++ before, after, (List.append_assoc ..).symm, List.length_append.symm, hr, hall,
        ?_, hright⟩
      rw [List.getLast?_append]
      cases hl : before.getLast? with
      | some c => exact fun d hd => hleft d (hl.trans hd)
      | none =>
        -- what follows `w` would begin with the run
        obtain rfl := List.getLast?_eq_none_iff.mp hl
        obtain ⟨d, ds, rfl⟩ := List.exists_cons_of_ne_nil hr
        have hd := hrest d rfl
        rw [hall d List.mem_cons_self] at hd
        cases hd

/-- The runs that are read off a text, with their places, are all that it has. -/
theorem mem_runsFrom_iff {i j : Nat} {cs r : List Char} :
    (j, r) ∈ runsFrom p i cs ↔ ∃ k, j = i + k ∧ RunAt p cs k r := by
  fun_induction runsFrom p i cs generalizing j r with
  | case1 i =>
    refine iff_of_false List.not_mem_nil ?_
    rintro ⟨k, -, before, after, hcs, -, hne, -⟩
    simp [hne] at hcs
  | case2 i c cs h ih =>
    have hw : ∀ d ∈ c :: cs.takeWhile p, p d = true := by
      intro d hd
      rcases List.mem_cons.mp hd with rfl | hd
      · exact h
      · exact List.mem_takeWhile_imp hd
    have hrun := @runAt_append p _ _ (List.cons_ne_nil c _) hw (head?_dropWhile cs) r
    rw [List.cons_append, List.takeWhile_append_dropWhile] at hrun
    rw [List.mem_cons, ih, Prod.mk.injEq]
    simp only [hrun]
    constructor
    · rintro (⟨rfl, rfl⟩ | ⟨k, rfl, hk⟩)
      · exact ⟨0, rfl, .inl ⟨rfl, rfl⟩⟩
      · exact ⟨_, by rw [List.length_cons]; omega, .inr ⟨k, rfl, hk⟩⟩
    · rintro ⟨_, rfl, ⟨rfl, rfl⟩ | ⟨k, rfl, hk⟩⟩
      · exact .inl ⟨rfl, rfl⟩
      · exact .inr ⟨k, by rw [List.length_cons]; omega, hk⟩
  | case3 i c cs h ih =>
    rw [ih]
    simp only [runAt_cons_of_neg (show p c = false by simpa using h)]
    constructor
    · rintro ⟨k, rfl, hk⟩
      exact ⟨k + 1, by omega, k, rfl, hk⟩
    · rintro ⟨_, rfl, k, rfl, hk⟩
      exact ⟨k, by omega, hk⟩

/-! ### Repeated entries -/

/-- Of a list with places, what is kept of repeated entries is in the order of the first places. -/
theorem pairwise_eraseDups {α : Type} [BEq α] [LawfulBEq α] (l : List (Nat × α))
    (h : l.Pairwise (·.1 < ·.1)) :
    (l.map (·.2)).eraseDups.Pairwise fun a b =>
      a ≠ b ∧ ∃ i, (i, a) ∈ l ∧ ∀ j, (j, b) ∈ l → i < j := by
  match l, h with
  | [], _ => exact .nil
  | (i, a) :: l, h =>
    obtain ⟨hi, hl⟩ := List.pairwise_cons.mp h
    have hrest : ((l.map (·.2)).filter fun b => !b == a) =
        (l.filter fun q => !q.2 == a).map (·.2) := List.filter_map
    rw [List.map_cons, List.eraseDups_cons, hrest]
    have hkept : ∀ {j b}, (j, b) ∈ l.filter (fun q => !q.2 == a) ↔ (j, b) ∈ l ∧ b ≠ a := by
      simp
    have hmem : ∀ {b}, b ∈ ((l.filter fun q => !q.2 == a).map (·.2)).eraseDups → b ≠ a := by
      intro b hb
      obtain ⟨⟨j, c⟩, hc, rfl⟩ := List.mem_map.mp (List.mem_eraseDups.mp hb)
      exact (hkept.mp hc).2
    have := List.length_filter_le (fun q : Nat × α => !q.2 == a) l
    refine .cons (fun b hb => ⟨(hmem hb).symm, i, List.mem_cons_self, fun j hj => ?_⟩)
      ((pairwise_eraseDups _ (hl.filter _)).imp_of_mem ?_)
    · rcases List.mem_cons.mp hj with heq | hj
      · exact absurd (Prod.mk.inj heq).2 (hmem hb)
      · exact hi _ hj
    · rintro b c hb hc ⟨hne, j, hj, hfirst⟩
      refine ⟨hne, j, List.mem_cons_of_mem _ (hkept.mp hj).1, fun k hk => ?_⟩
      rcases List.mem_cons.mp hk with heq | hk
      · exact absurd (Prod.mk.inj heq).2 (hmem hc)
      · exact hfirst k (hkept.mpr ⟨hk, hmem hc⟩)
termination_by l.length

end WordRole.Text
