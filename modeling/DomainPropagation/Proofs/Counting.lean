import DomainPropagation.Constraint.Count
import DomainPropagation.Proofs.Filters

/-! The counting constraint as a filter of boxes. The step compares the least and the greatest number of
subjects that can take the value with the bounds of the counter, each as a value. As long as the subjects can be
counted, what it keeps of a smaller box is less. -/

namespace DomainPropagation

namespace Count

open scoped Classical

variable {c : Count} {A B C : Box} {x y : Var} {u v : Int} {S : Set Int}

section

variable {α : Type} {p q : α → Prop} [DecidablePred p] [DecidablePred q] {l : List α}

theorem countP_le (h : ∀ a ∈ l, p a → q a) : (l.countP (p ·) : Int) ≤ l.countP (q ·) :=
  Int.ofNat_le.mpr (List.countP_mono_left fun a ha hp => decide_eq_true (h a ha (of_decide_eq_true hp)))

theorem imp_of_countP_le (h : ∀ a ∈ l, p a → q a) (hl : (l.countP (q ·) : Int) ≤ l.countP (p ·)) :
    ∀ a ∈ l, q a → p a := by
  induction l with
  | nil => simp
  | cons b l ih =>
    have hm := countP_le fun a ha => h a (List.mem_cons_of_mem b ha)
    have hb := h b (by simp)
    simp only [List.countP_cons, decide_eq_true_eq] at hl
    intro a ha hq
    rcases List.mem_cons.1 ha with rfl | ha
    · by_contra hp
      rw [if_pos hq, if_neg hp] at hl
      omega
    · refine ih (fun a ha => h a (List.mem_cons_of_mem b ha)) ?_ a ha hq
      split at hl <;> split at hl <;> first | omega | exact absurd (hb ‹_›) ‹_›

end

noncomputable section

def least (c : Count) (B : Box) : Int := c.subjects.countP fun x => B x = {c.value}

def most (c : Count) (B : Box) : Int := c.subjects.countP fun x => c.value ∈ B x

def Undecided (c : Count) (B : Box) (x : Var) : Prop := c.value ∈ B x ∧ B x ≠ {c.value}

def maybe (c : Count) (B : Box) : Int := c.subjects.countP fun x => c.Undecided B x

/-- The numbers that the step has for the least and the greatest. -/
def low (c : Count) (B : Box) : Int := wrap (c.least B)

def high (c : Count) (B : Box) : Int := wrap (c.most B)

def settle (v : Int) (xs : List Var) (B : Box) (S : Set Int) : Box :=
  fun x => {u ∈ B x | x ∈ xs → v ∈ B x → B x ≠ {v} → u ∈ S}

def filter (c : Count) (B : Box) : Box :=
  if IsLeast (B c.counter) (c.high B) then
    (settle c.value c.subjects B {c.value}).restrict c.counter {c.high B}
  else if IsGreatest (B c.counter) (c.low B) then
    (settle c.value c.subjects B {u | u ≠ c.value}).restrict c.counter {c.low B}
  else B.restrict c.counter {u | c.low B ≤ u ∧ u ≤ c.high B}

def Decides (c : Count) (B : Box) : Prop :=
  IsLeast (B c.counter) (c.high B) ∨ IsGreatest (B c.counter) (c.low B)

end

/-- There are no more subjects than the largest value, so that counting them comes out right. -/
def InRange (c : Count) : Prop := c.subjects.length ≤ maxValue

instance : Decidable c.InRange := inferInstanceAs (Decidable (_ ≤ _))

theorem InRange.wrap_countP (hr : c.InRange) (p : Var → Bool) :
    wrap (c.subjects.countP p) = c.subjects.countP p := by
  have hp := List.countP_le_length (p := p) (l := c.subjects)
  rw [InRange, maxValue] at hr
  rw [wrap_eq_self_iff, minValue, maxValue]
  omega

theorem InRange.low_eq (hr : c.InRange) (B : Box) : c.low B = c.least B := hr.wrap_countP _

theorem InRange.high_eq (hr : c.InRange) (B : Box) : c.high B = c.most B := hr.wrap_countP _

theorem least_le_most (c : Count) (B : Box) : c.least B ≤ c.most B :=
  countP_le fun x _ hx => by simp [hx]

theorem least_add_maybe (c : Count) (B : Box) : c.least B + c.maybe B = c.most B := by
  rw [least, maybe, most, ← Int.natCast_add, Int.ofNat_inj]
  induction c.subjects with
  | nil => rfl
  | cons x xs ih =>
    simp only [List.countP_cons, decide_eq_true_eq]
    by_cases hB : B x = {c.value}
    · have hv : c.value ∈ B x := hB ▸ rfl
      rw [if_pos hB, if_neg (fun h => h.2 hB), if_pos hv]
      omega
    by_cases hv : c.value ∈ B x
    · rw [if_neg hB, if_pos ⟨hv, hB⟩, if_pos hv]
      omega
    · rw [if_neg hB, if_neg (fun h => hv h.1), if_neg hv]
      omega

theorem settle_le {xs : List Var} : settle v xs B S ≤ B := fun _ _ h => h.1

theorem filter_le : c.filter B ≤ B := by
  rw [filter]
  split
  · exact Box.restrict_le.trans settle_le
  · split
    · exact Box.restrict_le.trans settle_le
    · exact Box.restrict_le

theorem eq_singleton_of_le {S T : Set Int} (h : S ⊆ T) (hS : S.Nonempty) (hT : T = {v}) : S = {v} :=
  hS.subset_singleton_iff.1 (hT ▸ h)

theorem most_mono (h : ∀ x ∈ c.subjects, A x ⊆ B x) : c.most A ≤ c.most B :=
  countP_le fun x hx hA => h x hx hA

theorem least_anti (h : ∀ x ∈ c.subjects, A x ⊆ B x) (hA : ∀ x ∈ c.subjects, (A x).Nonempty) :
    c.least B ≤ c.least A :=
  countP_le fun x hx hB => eq_singleton_of_le (h x hx) (hA x hx) hB

theorem mem_of_most_le (h : ∀ x ∈ c.subjects, A x ⊆ B x) (hm : c.most B ≤ c.most A) (hx : x ∈ c.subjects)
    (hv : c.value ∈ B x) : c.value ∈ A x :=
  imp_of_countP_le (fun x hx hA => h x hx hA) hm x hx hv

theorem eq_of_least_le (h : ∀ x ∈ c.subjects, A x ⊆ B x) (hA : ∀ x ∈ c.subjects, (A x).Nonempty)
    (hl : c.least A ≤ c.least B) (hx : x ∈ c.subjects) (hv : A x = {c.value}) : B x = {c.value} :=
  imp_of_countP_le (fun x hx hB => eq_singleton_of_le (h x hx) (hA x hx) hB) hl x hx hv

theorem eq_of_most_le_least (hl : c.most A ≤ c.least A) (hx : x ∈ c.subjects) (hv : c.value ∈ A x) :
    A x = {c.value} :=
  imp_of_countP_le (fun x _ hA => by simp [hA]) hl x hx hv

theorem mem_filter_of_isLeast (h : IsLeast (B c.counter) (c.high B)) :
    u ∈ c.filter B x ↔ u ∈ B x ∧ (x ∈ c.subjects → c.value ∈ B x → u = c.value) ∧
      (x = c.counter → u = c.high B) := by
  rw [filter, if_pos h]
  simp only [Box.mem_restrict, settle, Set.mem_ofPred_eq, Set.mem_singleton_iff, and_assoc]
  refine and_congr_right fun hu => and_congr_left fun _ => ?_
  refine ⟨fun hs hx hv => ?_, fun hs hx hv _ => hs hx hv⟩
  by_cases hB : B x = {c.value}
  · rw [hB] at hu
    exact hu
  · exact hs hx hv hB

theorem mem_filter_of_isGreatest (hn : ¬ IsLeast (B c.counter) (c.high B))
    (h : IsGreatest (B c.counter) (c.low B)) :
    u ∈ c.filter B x ↔ u ∈ B x ∧ (x ∈ c.subjects → u = c.value → B x = {c.value}) ∧
      (x = c.counter → u = c.low B) := by
  rw [filter, if_neg hn, if_pos h]
  simp only [Box.mem_restrict, settle, Set.mem_ofPred_eq, Set.mem_singleton_iff, and_assoc]
  refine and_congr_right fun hu => and_congr_left fun _ => forall_congr' fun _ => ?_
  constructor
  · rintro hs rfl
    by_contra hB
    exact hs hu hB rfl
  · rintro hs - hB rfl
    exact hB (hs rfl)

theorem mem_filter_of_not_decides (h : ¬ c.Decides B) :
    u ∈ c.filter B x ↔ u ∈ B x ∧ (x = c.counter → c.low B ≤ u ∧ u ≤ c.high B) := by
  rw [Decides, not_or] at h
  rw [filter, if_neg h.1, if_neg h.2]
  rfl

theorem filter_counter (hr : c.InRange) (h : u ∈ c.filter B c.counter) : c.least B ≤ u ∧ u ≤ c.most B := by
  have hlm := c.least_le_most B
  by_cases hl : IsLeast (B c.counter) (c.high B)
  · have := ((mem_filter_of_isLeast hl).1 h).2.2 rfl
    have := hr.high_eq B
    omega
  by_cases hg : IsGreatest (B c.counter) (c.low B)
  · have := ((mem_filter_of_isGreatest hl hg).1 h).2.2 rfl
    have := hr.low_eq B
    omega
  · rw [← hr.low_eq B, ← hr.high_eq B]
    exact ((mem_filter_of_not_decides (not_or.mpr ⟨hl, hg⟩)).1 h).2 rfl

theorem mem_scope : x ∈ c.scope ↔ x ∈ c.subjects ∨ x = c.counter := by
  simp [scope]

theorem counter_mem_scope : c.counter ∈ c.scope := mem_scope.2 (.inr rfl)

theorem mem_scope_of_mem_subjects (h : x ∈ c.subjects) : x ∈ c.scope := mem_scope.2 (.inl h)

section

variable (hr : c.InRange) (h : A ≤ B) (hA : ∀ x ∈ c.scope, (c.filter A x).Nonempty)
include hA

theorem subjects_nonempty : ∀ x ∈ c.subjects, (A x).Nonempty :=
  fun x hx => (hA x (mem_scope_of_mem_subjects hx)).mono (filter_le x)

include hr h

theorem filter_mono_of_isLeast (hB : IsLeast (B c.counter) (c.high B)) : c.filter A ≤ c.filter B := by
  obtain ⟨w, hw⟩ := hA c.counter counter_mem_scope
  have hwA : w ∈ A c.counter := filter_le _ hw
  have hmm := most_mono (c := c) fun x _ => h x
  have hwm := (filter_counter hr hw).2
  have hBw := hB.2 (h _ hwA)
  have hhA := hr.high_eq A
  have hhB := hr.high_eq B
  have hmost : c.most A = c.most B := by omega
  have hhigh : c.high A = c.high B := congrArg wrap hmost
  have hl : IsLeast (A c.counter) (c.high A) := by
    refine ⟨(show w = c.high A by omega) ▸ hwA, fun u hu => ?_⟩
    rw [hhigh]
    exact hB.2 (h _ hu)
  intro x u hu
  obtain ⟨huA, hs, hk⟩ := (mem_filter_of_isLeast hl).1 hu
  refine (mem_filter_of_isLeast hB).2 ⟨h x huA, fun hx hv => ?_, fun hx => (hk hx).trans hhigh⟩
  exact hs hx (mem_of_most_le (fun x _ => h x) hmost.ge hx hv)

theorem filter_mono_of_isGreatest (hn : ¬ IsLeast (B c.counter) (c.high B))
    (hB : IsGreatest (B c.counter) (c.low B)) : c.filter A ≤ c.filter B := by
  obtain ⟨w, hw⟩ := hA c.counter counter_mem_scope
  have hwA : w ∈ A c.counter := filter_le _ hw
  have hs := subjects_nonempty hA
  have hll := least_anti (c := c) (fun x _ => h x) hs
  have hwl := (filter_counter hr hw).1
  have hBw := hB.2 (h _ hwA)
  have hlA := hr.low_eq A
  have hlB := hr.low_eq B
  have hleast : c.least A = c.least B := by omega
  have hlow : c.low A = c.low B := congrArg wrap hleast
  have hg : IsGreatest (A c.counter) (c.low A) := by
    refine ⟨(show w = c.low A by omega) ▸ hwA, fun u hu => ?_⟩
    rw [hlow]
    exact hB.2 (h _ hu)
  have hsure : ∀ x ∈ c.subjects, A x = {c.value} → B x = {c.value} :=
    fun x hx => eq_of_least_le (fun x _ => h x) hs hleast.le hx
  intro x u hu
  -- The first test of the step may succeed in the smaller box only; the counter then has one value left.
  by_cases hl : IsLeast (A c.counter) (c.high A)
  · have hml : c.high A ≤ c.low A := hg.2 hl.1
    have hlm := c.least_le_most A
    have hhA := hr.high_eq A
    obtain ⟨huA, -, hk⟩ := (mem_filter_of_isLeast hl).1 hu
    refine (mem_filter_of_isGreatest hn hB).2 ⟨h x huA, ?_, fun hx => ?_⟩
    · rintro hx rfl
      exact hsure x hx (eq_of_most_le_least (by omega) hx huA)
    · have := hk hx
      omega
  · obtain ⟨huA, hsA, hk⟩ := (mem_filter_of_isGreatest hl hg).1 hu
    exact (mem_filter_of_isGreatest hn hB).2
      ⟨h x huA, fun hx hv => hsure x hx (hsA hx hv), fun hx => (hk hx).trans hlow⟩

theorem filter_mono : c.filter A ≤ c.filter B := by
  by_cases hl : IsLeast (B c.counter) (c.high B)
  · exact filter_mono_of_isLeast hr h hA hl
  by_cases hg : IsGreatest (B c.counter) (c.low B)
  · exact filter_mono_of_isGreatest hr h hA hl hg
  intro x u hu
  refine (mem_filter_of_not_decides (not_or.mpr ⟨hl, hg⟩)).2 ⟨h x (filter_le x hu), ?_⟩
  rintro rfl
  have hb := filter_counter hr hu
  have := most_mono (c := c) fun x _ => h x
  have := least_anti (c := c) (fun x _ => h x) (subjects_nonempty hA)
  rw [hr.low_eq, hr.high_eq]
  omega

end

theorem filter_eq_self_of_settled (hs : ∀ x ∈ c.subjects, c.value ∈ C x → C x = {c.value})
    (hk : C c.counter = {c.high C}) : c.Decides C ∧ c.filter C = C := by
  have hl : IsLeast (C c.counter) (c.high C) := by
    rw [hk]
    exact isLeast_singleton
  refine ⟨.inl hl, le_antisymm filter_le fun x u hu => ?_⟩
  refine (mem_filter_of_isLeast hl).2 ⟨hu, fun hx hv => ?_, ?_⟩
  · have hu : u ∈ C x := hu
    rw [hs x hx hv] at hu
    exact hu
  · rintro rfl
    have hu : u ∈ C c.counter := hu
    rw [hk] at hu
    exact hu

theorem settled (hB : c.Decides B) (hC : ∀ x ∈ c.scope, C x ⊆ c.filter B x ∧ (C x).Nonempty) :
    c.Decides C ∧ c.filter C = C := by
  have hS := fun x hx => hC x (mem_scope_of_mem_subjects hx)
  have hK := hC c.counter counter_mem_scope
  by_cases hl : IsLeast (B c.counter) (c.high B)
  · have hval : ∀ x ∈ c.subjects, c.value ∈ B x → C x = {c.value} := fun x hx hv =>
      (hS x hx).2.subset_singleton_iff.1 fun u hu => ((mem_filter_of_isLeast hl).1 ((hS x hx).1 hu)).2.1 hx hv
    have hsub : ∀ x ∈ c.subjects, c.value ∈ C x → c.value ∈ B x := fun x hx hv => filter_le x ((hS x hx).1 hv)
    have hmost : c.most C = c.most B :=
      le_antisymm (countP_le hsub) (countP_le fun x hx hv => by simp [hval x hx hv])
    apply filter_eq_self_of_settled (fun x hx hv => hval x hx (hsub x hx hv))
    rw [high, hmost]
    exact hK.2.subset_singleton_iff.1 fun u hu => ((mem_filter_of_isLeast hl).1 (hK.1 hu)).2.2 rfl
  · have hg : IsGreatest (B c.counter) (c.low B) := hB.resolve_left hl
    have hval : ∀ x ∈ c.subjects, c.value ∈ C x → B x = {c.value} := fun x hx hv =>
      ((mem_filter_of_isGreatest hl hg).1 ((hS x hx).1 hv)).2.1 hx rfl
    have hsing : ∀ x ∈ c.subjects, B x = {c.value} → C x = {c.value} := fun x hx hB =>
      eq_singleton_of_le ((hS x hx).1.trans (filter_le x)) (hS x hx).2 hB
    have hmost : c.most C = c.least B :=
      le_antisymm (countP_le hval) (countP_le fun x hx hB => by simp [hsing x hx hB])
    apply filter_eq_self_of_settled (fun x hx hv => hsing x hx (hval x hx hv))
    rw [high, hmost]
    exact hK.2.subset_singleton_iff.1 fun u hu => ((mem_filter_of_isGreatest hl hg).1 (hK.1 hu)).2.2 rfl

theorem least_congr (h : ∀ x ∈ c.subjects, C x = B x) : c.least C = c.least B :=
  le_antisymm (countP_le fun x hx hC => h x hx ▸ hC) (countP_le fun x hx hB => (h x hx).trans hB)

theorem most_congr (h : ∀ x ∈ c.subjects, C x = B x) : c.most C = c.most B :=
  le_antisymm (most_mono fun x hx => (h x hx).le) (most_mono fun x hx => (h x hx).ge)

theorem low_congr (h : ∀ x ∈ c.subjects, C x = B x) : c.low C = c.low B := congrArg wrap (least_congr h)

theorem high_congr (h : ∀ x ∈ c.subjects, C x = B x) : c.high C = c.high B := congrArg wrap (most_congr h)

theorem filter_eq_self_or_tells (h : ¬ c.Decides B) :
    c.filter B = B ∨ Sensitivity.bounds.Tells (B c.counter) (c.filter B c.counter) := by
  have hkept : ∀ u ∈ c.filter B c.counter, c.low B ≤ u ∧ u ≤ c.high B := fun u hu =>
    ((mem_filter_of_not_decides h).1 hu).2 rfl
  by_cases hb : ∀ u ∈ B c.counter, c.low B ≤ u ∧ u ≤ c.high B
  · refine .inl (le_antisymm filter_le fun x u hu => (mem_filter_of_not_decides h).2 ⟨hu, ?_⟩)
    rintro rfl
    exact hb u hu
  · simp only [not_forall] at hb
    obtain ⟨u, hu, hb⟩ := hb
    refine .inr ?_
    rcases not_and_or.mp hb with hl | hm
    · left
      intro he
      have : c.low B ∈ lowerBounds (B c.counter) := he ▸ fun w hw => (hkept w hw).1
      exact hl (this hu)
    · right
      intro he
      have : c.high B ∈ upperBounds (B c.counter) := he ▸ fun w hw => (hkept w hw).2
      exact hm (this hu)

theorem unnoticed (hs : ∀ x ∈ c.subjects, C x = B x) (hk : C c.counter ⊆ B c.counter)
    (hb : ¬ Sensitivity.bounds.Tells (B c.counter) (C c.counter)) (h : ¬ c.Decides B) (hf : c.filter B = B) :
    ¬ c.Decides C ∧ c.filter C = C := by
  simp only [Sensitivity.Tells, not_or, ne_eq, not_not] at hb
  have hd : ¬ c.Decides C := by
    rintro (⟨hm, hl⟩ | ⟨hm, hg⟩)
    · rw [high_congr hs] at hm hl
      exact h (.inl ⟨hk hm, hb.1 ▸ hl⟩)
    · rw [low_congr hs] at hm hg
      exact h (.inr ⟨hk hm, hb.2 ▸ hg⟩)
  refine ⟨hd, le_antisymm filter_le fun x u hu => (mem_filter_of_not_decides hd).2 ⟨hu, ?_⟩⟩
  rintro rfl
  rw [low_congr hs, high_congr hs]
  have hu : u ∈ c.filter B c.counter := hf.symm ▸ hk hu
  exact ((mem_filter_of_not_decides h).1 hu).2 rfl

theorem holds_iff_countP {a : Assignment} {p : Var → Prop} [DecidablePred p]
    (h : ∀ x ∈ c.subjects, a x = c.value ↔ p x) : c.Holds a ↔ a c.counter = c.subjects.countP (p ·) := by
  rw [Holds, List.countP_congr fun x hx => ?_]
  rw [beq_iff_eq, decide_eq_true_eq]
  exact h x hx

theorem filter_of_holds (hr : c.InRange) {a : Assignment} (h : c.Holds a) (hC : ∀ x ∈ c.scope, C x = {a x}) :
    c.filter C = C := by
  have hs : ∀ x ∈ c.subjects, C x = {a x} := fun x hx => hC x (mem_scope_of_mem_subjects hx)
  have hm : a c.counter = c.most C := by
    refine (holds_iff_countP fun x hx => ?_).1 h
    rw [hs x hx]
    exact eq_comm
  refine (filter_eq_self_of_settled (fun x hx hv => ?_) ?_).2
  · rw [hs x hx] at hv ⊢
    rw [show c.value = a x from hv]
  · rw [hr.high_eq, ← hm]
    exact hC c.counter counter_mem_scope

end Count

end DomainPropagation
