import EmuleQt.Math.HalfOpen

namespace EmuleQt.Math.Span

variable {α : Type*} [LinearOrder α] {r s t : Span α} {rs : List (Span α)} {x : α}

/-- The span grown over what it overlaps or touches, in the order of the list, and the rest. -/
def absorb (r : Span α) : List (Span α) → Span α × List (Span α)
  | [] => (r, [])
  | t :: ts =>
    if t.second < r.first ∨ r.second < t.first then
      ((absorb r ts).1, t :: (absorb r ts).2)
    else absorb ⟨min r.first t.first, max r.second t.second⟩ ts

/-- Insertion before the first span that begins later. -/
def insertLast (r : Span α) (rs : List (Span α)) : List (Span α) :=
  rs.takeWhile (fun t => decide (t.first≤r.first)) ++
    r::rs.dropWhile fun t => decide (t.first≤r.first)

def insertAbsorbing (r : Span α) (rs : List (Span α)) : List (Span α) :=
  insertLast (absorb r rs).1 (absorb r rs).2

theorem union_nil : union ([] : List (Span α)) = ∅ :=
  Set.eq_empty_of_forall_notMem fun _ => mem_union_nil

theorem mem_union_insertLast (r : Span α) (rs : List (Span α)) :
    x∈union (insertLast r rs) ↔ (r.first≤x ∧ x<r.second) ∨ x∈union rs := by
  have hsplit : rs.takeWhile (fun t => decide (t.first≤r.first)) ++
      rs.dropWhile (fun t => decide (t.first≤r.first))=rs := List.takeWhile_append_dropWhile
  rw [insertLast,mem_union_append,mem_union_cons,or_left_comm,← mem_union_append,hsplit]

/-- A span apart from all the others goes in between them. -/
theorem insertLast_separated (hr : r.first<r.second) (h : Separated rs)
    (hapart : ∀ t∈rs,t.second<r.first ∨ r.second<t.first) :
    Separated (insertLast r rs) := by
  constructor
  · intro t ht
    rcases List.mem_append.mp ht with ht | ht
    · exact h.nonempty t ((List.takeWhile_sublist _).mem ht)
    · rcases List.mem_cons.mp ht with rfl | ht
      · exact hr
      · exact h.nonempty t ((List.dropWhile_sublist _).mem ht)
  · have hfront : ∀ t∈rs.takeWhile (fun t => decide (t.first≤r.first)),
        t.second<r.first := by
      intro t ht
      have hmem := List.mem_takeWhile_imp ht
      have hle : t.first≤r.first := of_decide_eq_true hmem
      rcases hapart t ((List.takeWhile_sublist _).mem ht) with hbefore | hafter
      · exact hbefore
      · exact absurd (hr.trans (hafter.trans_le hle)) (lt_irrefl _)
    have hback : ∀ t∈rs.dropWhile (fun t => decide (t.first≤r.first)),
        r.second<t.first := by
      induction rs with
      | nil => simp
      | cons u us ih =>
        rw [List.dropWhile_cons]
        split_ifs with hu
        · exact ih h.tail (fun t ht => hapart t (List.mem_cons_of_mem u ht)) fun t ht => by
            apply hfront t
            rw [List.takeWhile_cons,if_pos hu]
            exact List.mem_cons_of_mem u ht
        · have hlt : r.first<u.first := not_le.mp (by simpa using hu)
          have hfirst : r.second<u.first := by
            rcases hapart u List.mem_cons_self with hbefore | hafter
            · have hune := h.nonempty u List.mem_cons_self
              exact absurd (hune.trans (hbefore.trans hlt)) (lt_irrefl _)
            · exact hafter
          intro t ht
          rcases List.mem_cons.mp ht with rfl | ht
          · exact hfirst
          · have hut := (List.pairwise_cons.mp h.apart).1 t ht
            exact hfirst.trans ((h.nonempty u List.mem_cons_self).trans hut)
    have hsplit : (rs.takeWhile (fun t => decide (t.first≤r.first)) ++
        rs.dropWhile fun t => decide (t.first≤r.first)).Pairwise
          fun a b => a.second<b.first := by
      rw [List.takeWhile_append_dropWhile]
      exact h.apart
    obtain ⟨hleft,hright,hcross⟩ := List.pairwise_append.mp hsplit
    refine List.pairwise_append.mpr ⟨hleft,List.pairwise_cons.mpr ⟨hback,hright⟩,?_⟩
    intro t ht u hu
    rcases List.mem_cons.mp hu with rfl | hu
    · exact hfront t ht
    · exact hcross t ht u hu

theorem absorb_sublist (r : Span α) (rs : List (Span α)) : (absorb r rs).2.Sublist rs := by
  induction rs generalizing r with
  | nil => exact List.Sublist.refl []
  | cons t ts ih =>
    rw [absorb]
    split_ifs
    · exact (ih r).cons_cons t
    · exact (ih _).cons t

/-- The span does not grow down to a point before it and before all of the list. -/
theorem lt_absorb_first {a : α} (ha : a<r.first) (hrs : ∀ t∈rs,a<t.first) :
    a<(absorb r rs).1.first := by
  induction rs generalizing r with
  | nil => exact ha
  | cons t ts ih =>
    have hts : ∀ u∈ts,a<u.first := fun u hu => hrs u (List.mem_cons_of_mem t hu)
    rw [absorb]
    split_ifs
    · exact ih ha hts
    · exact ih (lt_min ha (hrs t List.mem_cons_self)) hts

/-- Nothing is absorbed from a list that begins after the end. -/
theorem absorb_eq_self (hrs : ∀ t∈rs,r.second<t.first) : absorb r rs=(r, rs) := by
  induction rs with
  | nil => rfl
  | cons t ts ih =>
    rw [absorb,if_pos (.inr (hrs t List.mem_cons_self)),
      ih fun u hu => hrs u (List.mem_cons_of_mem t hu)]

theorem absorb_nonempty (hr : r.first<r.second) :
    (absorb r rs).1.first<(absorb r rs).1.second := by
  induction rs generalizing r with
  | nil => exact hr
  | cons t ts ih =>
    rw [absorb]
    split_ifs
    · exact ih hr
    · exact ih ((min_le_left _ _).trans_lt (hr.trans_le (le_max_left _ _)))

/-- What is left lies apart from what the span has grown to. -/
theorem absorb_apart (h : Separated rs) :
    ∀ t∈(absorb r rs).2, t.second<(absorb r rs).1.first ∨ (absorb r rs).1.second<t.first := by
  induction rs generalizing r with
  | nil => simp [absorb]
  | cons u us ih =>
    have hlater := (List.pairwise_cons.mp h.apart).1
    rw [absorb]
    split_ifs with hclear
    · intro t ht
      rcases List.mem_cons.mp ht with rfl | ht
      · rcases hclear with hbefore | hafter
        · exact .inl (lt_absorb_first hbefore hlater)
        · rw [absorb_eq_self fun v hv => hafter.trans
            ((h.nonempty t List.mem_cons_self).trans (hlater v hv))]
          exact .inr hafter
      · exact ih h.tail t ht
    · exact ih h.tail

theorem mem_absorb (hr : r.first<r.second) (hrs : ∀ t∈rs,t.first<t.second) :
    (((absorb r rs).1.first≤x ∧ x<(absorb r rs).1.second) ∨ x∈union (absorb r rs).2) ↔
      (r.first≤x ∧ x<r.second) ∨ x∈union rs := by
  induction rs generalizing r with
  | nil => rfl
  | cons t ts ih =>
    obtain ⟨ht,hts⟩ := List.forall_mem_cons.mp hrs
    rw [absorb]
    split_ifs with hclear
    · rw [mem_union_cons,or_left_comm,ih hr hts,mem_union_cons,or_left_comm]
    · obtain ⟨htouch,htouch'⟩ := not_or.mp hclear
      rw [not_lt] at htouch htouch'
      rw [ih ((min_le_left _ _).trans_lt (hr.trans_le (le_max_left _ _))) hts,mem_union_cons,
        ← or_assoc]
      refine or_congr_left ?_
      simp only [min_le_iff,lt_max_iff]
      -- The two overlap or touch, so what lies between their ends lies in one of them.
      constructor
      · rintro ⟨hfrom | hfrom,hto | hto⟩
        · exact .inl ⟨hfrom,hto⟩
        · rcases lt_or_ge x r.second with hlt | hge
          · exact .inl ⟨hfrom,hlt⟩
          · exact .inr ⟨htouch'.trans hge,hto⟩
        · rcases lt_or_ge x t.second with hlt | hge
          · exact .inr ⟨hfrom,hlt⟩
          · exact .inl ⟨htouch.trans hge,hto⟩
        · exact .inr ⟨hfrom,hto⟩
      · rintro (⟨hfrom,hto⟩ | ⟨hfrom,hto⟩)
        · exact ⟨.inl hfrom,.inl hto⟩
        · exact ⟨.inr hfrom,.inr hto⟩

/-- Insertion adds exactly the new span, and keeps the spans apart. -/
theorem insertAbsorbing_spec (hr : r.first<r.second) (h : Separated rs) :
    Separated (insertAbsorbing r rs) ∧
      ∀ x,x∈union (insertAbsorbing r rs) ↔ (r.first≤x ∧ x<r.second) ∨ x∈union rs := by
  have hleft : Separated (absorb r rs).2 :=
    ⟨fun t ht => h.nonempty t ((absorb_sublist r rs).mem ht),h.apart.sublist (absorb_sublist r rs)⟩
  refine ⟨insertLast_separated (absorb_nonempty hr) hleft (absorb_apart h),fun x => ?_⟩
  rw [insertAbsorbing,mem_union_insertLast]
  exact mem_absorb hr h.nonempty

end EmuleQt.Math.Span
