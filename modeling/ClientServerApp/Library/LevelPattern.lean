import Mathlib.Data.List.Basic

/-! Patterns over a sequence of levels, with a wildcard for one level and a wildcard for one or
more consecutive levels. -/
namespace LevelPattern
variable {β : Type*} {one many : β}

/-- The pattern matches the levels: `one` stands for any single level, `many` for any nonempty
run of levels, and every other level for itself. -/
inductive Matches (one many : β) : List β → List β → Prop
  | nil : Matches one many [] []
  | one {p ts} (t : β) (tail : Matches one many p ts) : Matches one many (one :: p) (t :: ts)
  | many {p rest} (run : List β) (nonempty : run ≠ []) (tail : Matches one many p rest) :
      Matches one many (many :: p) (run ++ rest)
  | text {l p ts} (hone : l ≠ one) (hmany : l ≠ many) (tail : Matches one many p ts) :
      Matches one many (l :: p) (l :: ts)

@[simp] theorem matches_nil_iff {p : List β} : Matches one many p [] ↔ p = [] := by
  constructor
  · intro h
    generalize hts : ([] : List β) = ts at h
    cases h with
    | nil => rfl
    | one t tail => cases hts
    | many run nonempty tail => exact absurd (List.append_eq_nil_iff.mp hts.symm).1 nonempty
    | text hone hmany tail => cases hts
  · rintro rfl
    exact .nil

@[simp] theorem not_matches_nil_cons {t : β} {ts : List β} : ¬ Matches one many [] (t :: ts) := by
  intro h
  cases h

/-- What the first pattern level may be, and what remains to be matched. A level equal to the
topic's is admitted whether or not it is also a wildcard. -/
theorem matches_cons_iff {q t : β} {p ts : List β} :
    Matches one many (q :: p) (t :: ts) ↔
      ((q = one ∨ q = t) ∧ Matches one many p ts) ∨
        (q = many ∧ ∃ rest, rest <:+ ts ∧ Matches one many p rest) := by
  constructor
  · intro h
    generalize hq : q :: p = qs at h
    generalize ht : t :: ts = us at h
    cases h with
    | nil => cases hq
    | one t' tail =>
      cases hq
      cases ht
      exact .inl ⟨.inl rfl,tail⟩
    | @many p' rest run nonempty tail =>
      cases hq
      obtain ⟨u,us,rfl⟩ := List.exists_cons_of_ne_nil nonempty
      obtain ⟨rfl,rfl⟩ := List.cons_eq_cons.mp ht
      exact .inr ⟨rfl,rest,List.suffix_append us rest,tail⟩
    | text hone hmany tail =>
      cases hq
      cases ht
      exact .inl ⟨.inr rfl,tail⟩
  · rintro (⟨hq,tail⟩ | ⟨rfl,rest,⟨run,rfl⟩,tail⟩)
    · by_cases hone : q = one
      · subst q
        exact .one t tail
      · obtain rfl := hq.resolve_left hone
        by_cases hmany : q = many
        · subst q
          exact .many [many] (by simp) tail
        · exact .text hone hmany tail
    · exact .many (t :: run) (by simp) tail

/-- A level made more general: it becomes the wildcard for one level, and that one the wildcard for more. -/
def widen [DecidableEq β] (one many l : β) : β := if l = one then many else one

/-- As `Matches`, but `many` never stands for a gap alone: at a gap it takes at least one level more. -/
inductive Accepts (one many gap : β) : List β → List β → Prop
  | nil : Accepts one many gap [] []
  | one {p ts} (t : β) (tail : Accepts one many gap p ts) : Accepts one many gap (one :: p) (t :: ts)
  | many {p rest} (run : List β) (nonempty : run ≠ []) (ungapped : run ≠ [gap])
      (tail : Accepts one many gap p rest) : Accepts one many gap (many :: p) (run ++ rest)
  | text {l p ts} (hone : l ≠ one) (hmany : l ≠ many) (tail : Accepts one many gap p ts) :
      Accepts one many gap (l :: p) (l :: ts)

section Accepts
variable {gap : β} {p ts : List β}

/-- Nothing is accepted that does not match. -/
theorem Accepts.matches (h : Accepts one many gap p ts) : Matches one many p ts := by
  induction h with
  | nil => exact .nil
  | one t _ ih => exact .one t ih
  | many run nonempty _ _ ih => exact .many run nonempty ih
  | text hone hmany _ ih => exact .text hone hmany ih

/-- A pattern without `many`, and any pattern on levels without gaps, is accepted where it matches. -/
theorem Matches.accepts (h : Matches one many p ts) (hplain : many ∉ p ∨ gap ∉ ts) : Accepts one many gap p ts := by
  induction h with
  | nil => exact .nil
  | one t _ ih => exact .one t (ih (hplain.imp (mt (List.mem_cons_of_mem _)) (mt (List.mem_cons_of_mem _))))
  | @many p rest run nonempty _ ih =>
    have hgap : gap ∉ run ++ rest := hplain.resolve_left fun h => h List.mem_cons_self
    refine .many run nonempty ?_ (ih (.inr (mt (List.mem_append_right _) hgap)))
    rintro rfl
    exact hgap (List.mem_append_left _ (List.mem_singleton_self gap))
  | text hone hmany _ ih =>
    exact .text hone hmany (ih (hplain.imp (mt (List.mem_cons_of_mem _)) (mt (List.mem_cons_of_mem _))))

@[simp] theorem accepts_nil_iff : Accepts one many gap p [] ↔ p = [] := by
  constructor
  · intro h
    exact matches_nil_iff.mp h.matches
  · rintro rfl
    exact .nil

@[simp] theorem not_accepts_nil_cons {t : β} : ¬ Accepts one many gap [] (t :: ts) :=
  fun h => not_matches_nil_cons h.matches

/-- What the first pattern level may be, and what remains. -/
theorem accepts_cons_iff (hgap : many ≠ gap) {q t : β} :
    Accepts one many gap (q :: p) (t :: ts) ↔
      ((q = one ∨ q = t) ∧ Accepts one many gap p ts) ∨
        (q = many ∧ ∃ rest, rest <:+ ts ∧ (t = gap → rest ≠ ts) ∧ Accepts one many gap p rest) := by
  constructor
  · intro h
    generalize hq : q :: p = qs at h
    generalize ht : t :: ts = us at h
    cases h with
    | nil => cases hq
    | one t' tail =>
      cases hq
      cases ht
      exact .inl ⟨.inl rfl,tail⟩
    | @many p' rest run nonempty ungapped tail =>
      cases hq
      obtain ⟨u,us,rfl⟩ := List.exists_cons_of_ne_nil nonempty
      obtain ⟨rfl,rfl⟩ := List.cons_eq_cons.mp ht
      refine .inr ⟨rfl,rest,List.suffix_append us rest,?_,tail⟩
      rintro rfl hall
      rw [List.self_eq_append_left.mp hall] at ungapped
      exact ungapped rfl
    | text hone hmany tail =>
      cases hq
      cases ht
      exact .inl ⟨.inr rfl,tail⟩
  · rintro (⟨hq,tail⟩ | ⟨rfl,rest,⟨run,rfl⟩,hstrict,tail⟩)
    · by_cases hone : q = one
      · subst q
        exact .one t tail
      · obtain rfl := hq.resolve_left hone
        by_cases hmany : q = many
        · subst q
          exact .many [many] (by simp) (by simpa using hgap) tail
        · exact .text hone hmany tail
    · refine .many (t :: run) (by simp) ?_ tail
      intro hrun
      obtain ⟨rfl,rfl⟩ := List.cons_eq_cons.mp hrun
      exact hstrict rfl rfl

/-- A pattern in two parts is accepted where the levels fall into two parts. -/
theorem accepts_append_iff {p' : List β} : Accepts one many gap (p ++ p') ts ↔
    ∃ us vs, ts = us ++ vs ∧ Accepts one many gap p us ∧ Accepts one many gap p' vs := by
  constructor
  · intro h
    induction p generalizing ts with
    | nil => exact ⟨[],ts,rfl,.nil,h⟩
    | cons q p ih =>
      rw [List.cons_append] at h
      cases h with
      | one t tail =>
        obtain ⟨us,vs,rfl,hus,hvs⟩ := ih tail
        exact ⟨t :: us,vs,rfl,.one t hus,hvs⟩
      | many run nonempty ungapped tail =>
        obtain ⟨us,vs,rfl,hus,hvs⟩ := ih tail
        exact ⟨run ++ us,vs,(List.append_assoc _ _ _).symm,.many run nonempty ungapped hus,hvs⟩
      | @text l _ _ hone hmany tail =>
        obtain ⟨us,vs,rfl,hus,hvs⟩ := ih tail
        exact ⟨q :: us,vs,rfl,.text hone hmany hus,hvs⟩
  · rintro ⟨us,vs,rfl,hus,hvs⟩
    induction hus with
    | nil => exact hvs
    | one t _ ih => exact .one t ih
    | many run nonempty ungapped _ ih =>
      rw [List.append_assoc]
      exact .many run nonempty ungapped ih
    | text hone hmany _ ih => exact .text hone hmany ih

theorem accepts_one_cons_iff (hne : one ≠ many) : Accepts one many gap (one :: p) ts ↔
    ∃ t rest, ts = t :: rest ∧ Accepts one many gap p rest := by
  constructor
  · intro h
    cases h with
    | one t tail => exact ⟨t,_,rfl,tail⟩
    | many => exact absurd rfl hne
    | text hone => exact absurd rfl hone
  · rintro ⟨t,rest,rfl,h⟩
    exact .one t h

theorem accepts_many_cons_iff (hne : one ≠ many) : Accepts one many gap (many :: p) ts ↔
    ∃ run rest, ts = run ++ rest ∧ run ≠ [] ∧ run ≠ [gap] ∧ Accepts one many gap p rest := by
  constructor
  · intro h
    cases h with
    | one => exact absurd rfl hne
    | @many _ rest run nonempty ungapped tail => exact ⟨run,rest,rfl,nonempty,ungapped,tail⟩
    | text _ hmany => exact absurd rfl hmany
  · rintro ⟨run,rest,rfl,nonempty,ungapped,h⟩
    exact .many run nonempty ungapped h

/-- On levels without gaps the wildcard for one level stands for such a run. -/
theorem Accepts.exists_run (hne : one ≠ many) (h : Accepts one many gap p ts) {i : ℕ}
    (hone : p[i]? = some one) (hgap : gap ∉ ts) : ∃ us run vs, ts = us ++ (run ++ vs) ∧ run ≠ [] ∧ run ≠ [gap] ∧
      Accepts one many gap (p.take i) us ∧ Accepts one many gap (p.drop (i+1)) vs := by
  obtain ⟨hlt,hget⟩ := List.getElem?_eq_some_iff.mp hone
  rw [← List.take_append_drop i p,List.drop_eq_getElem_cons hlt,hget,accepts_append_iff] at h
  obtain ⟨us,_,rfl,hus,h⟩ := h
  obtain ⟨t,vs,rfl,hvs⟩ := (accepts_one_cons_iff hne).mp h
  refine ⟨us,[t],vs,rfl,by simp,fun heq => ?_,hus,hvs⟩
  obtain rfl := List.singleton_inj.mp heq
  simp at hgap

section Widened
variable [DecidableEq β] {i : ℕ}

/-- A level that is no wildcard may become the one for one level. -/
theorem Accepts.modify_widen (h : Accepts one many gap p ts) (hone : p[i]? ≠ some one) (hmany : p[i]? ≠ some many) :
    Accepts one many gap (p.modify i (widen one many)) ts := by
  induction h generalizing i with
  | nil =>
    rw [List.modify_nil]
    exact .nil
  | one t _ ih =>
    cases i with
    | zero => exact absurd rfl hone
    | succ i =>
      rw [List.modify_succ_cons]
      exact .one t (ih (by simpa using hone) (by simpa using hmany))
  | many run nonempty ungapped _ ih =>
    cases i with
    | zero => exact absurd rfl hmany
    | succ i =>
      rw [List.modify_succ_cons]
      exact .many run nonempty ungapped (ih (by simpa using hone) (by simpa using hmany))
  | @text l p ts hne hne' tail ih =>
    cases i with
    | zero =>
      rw [List.modify_zero_cons,widen,if_neg hne]
      exact .one l tail
    | succ i =>
      rw [List.modify_succ_cons]
      exact .text hne hne' (ih (by simpa using hone) (by simpa using hmany))

/-- The wildcard for one level may become the one for more where it then has a run of levels other than a gap
alone. -/
theorem accepts_modify_widen_iff (hne : one ≠ many) (hone : p[i]? = some one) :
    Accepts one many gap (p.modify i (widen one many)) ts ↔ ∃ us run vs, ts = us ++ (run ++ vs) ∧ run ≠ [] ∧
      run ≠ [gap] ∧ Accepts one many gap (p.take i) us ∧ Accepts one many gap (p.drop (i+1)) vs := by
  obtain ⟨hlt,hget⟩ := List.getElem?_eq_some_iff.mp hone
  rw [List.modify_eq_take_cons_drop hlt,hget,widen,if_pos rfl,accepts_append_iff]
  constructor
  · rintro ⟨us,_,rfl,hus,h⟩
    obtain ⟨run,vs,rfl,hrun,hgap,hvs⟩ := (accepts_many_cons_iff hne).mp h
    exact ⟨us,run,vs,rfl,hrun,hgap,hus,hvs⟩
  · rintro ⟨us,run,vs,rfl,hrun,hgap,hus,hvs⟩
    exact ⟨us,_,rfl,hus,.many run hrun hgap hvs⟩

end Widened

end Accepts

end LevelPattern
