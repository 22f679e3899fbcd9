import EmuleQt.Utils.QtFormat

namespace EmuleQt.Utils.QString

/-- The text of some pieces, with the markers of one number filled in. -/
def fill (n : Nat) (x : QString) (ps : List Piece) : QString :=
  ps.flatMap fun p => if p.number? = some n then x else p.text

/-- `QString::arg` of two arguments: the markers of the two lowest numbers are replaced at once. -/
def argTwo (s x y : QString) : QString :=
  match (markers s).min? with
  | none => s
  | some m =>
    match ((markers s).filter fun n => decide (m<n)).min? with
    | none => arg s x
    | some n => (pieces s).flatMap fun p =>
        if p.number? = some m then x else if p.number? = some n then y else p.text

variable {s t x : QString} {ps qs : List Piece} {n : Nat}

theorem pieces_before (u : UInt16) (ht : ∀ v,t.head? = some v → digit? v=none) :
    pieces (u::t) = .unit u::pieces t := by
  match t with
  | [] => rfl
  | [v] =>
    rw [pieces,ht v rfl]
    rfl
  | v::w::rest =>
    rw [pieces,ht v rfl]
    split_ifs <;> rfl

theorem pieces_append (s : QString) (ht : ∀ v,t.head? = some v → digit? v=none) :
    pieces (s++t)=pieces s++pieces t := by
  have hlast : ∀ u a : UInt16, digit? a=none →
      pieces (u::a::t) = .unit u :: .unit a::pieces t := by
    intro u a ha
    rw [pieces_before u (t := a::t) (by simpa using ha),pieces_before a ht]
  induction s using pieces.induct with
  | case1 a b rest m n hb ha ih =>
    simp only [List.cons_append,pieces,if_pos,ha,hb]
    rw [ih]
  | case2 a b rest m hb ha ih =>
    simp only [List.cons_append,pieces,if_pos,ha,hb]
    rw [← ih]
    rfl
  | case3 a b rest ha ih =>
    simp only [List.cons_append,pieces,if_pos,ha]
    rw [← ih]
    rfl
  | case4 u a b rest hu ih =>
    rw [List.cons_append,pieces_unit hu,pieces_unit hu,ih,List.cons_append]
  | case5 a m ha =>
    cases t with
    | nil => simp [pieces]
    | cons v t =>
      have hv := ht v rfl
      simp [pieces,ha,hv]
  | case6 u a m ha hu =>
    rw [List.cons_append,pieces_unit hu,List.cons_append,List.nil_append,pieces_before a ht,
      pieces_unit hu,pieces]
    rfl
  | case7 u a ha =>
    rw [List.cons_append,List.cons_append,List.nil_append,hlast u a ha,pieces,ha]
    rfl
  | case8 u => exact pieces_before u ht
  | case9 => rfl

theorem markers_append_of_no_digit (s : QString) (ht : ∀ v,t.head? = some v → digit? v=none) :
    markers (s++t)=markers s++markers t := by
  rw [markers,pieces_append s ht,List.filterMap_append]
  rfl

theorem arg_eq (h : (markers s).min? = some n) : arg s x=fill n x (pieces s) := by
  rw [arg,h]
  rfl

theorem fill_append : fill n x (ps++qs)=fill n x ps++fill n x qs := List.flatMap_append

theorem fill_none (h : n∉markers s) : fill n x (pieces s)=s := by
  conv_rhs => rw [← pieces_text s]
  refine List.flatMap_congr fun p hp => if_neg fun hsame => ?_
  exact h (List.mem_filterMap.mpr ⟨p,hp,hsame⟩)

theorem marker_text {w : QString} (h : Piece.marker n w∈pieces s) :
    ∃ ds, w=percent::ds ∧ percent∉ds := by
  have hdigit : ∀ {u m}, digit? u=some m → percent≠u := by
    intro u m hu heq
    rw [← heq] at hu
    cases hu
  induction s using pieces.induct with
  | case1 a b rest m n hb ha ih =>
    simp only [pieces,if_pos,ha,hb,List.mem_cons] at h
    rcases h with h | h
    · cases h
      exact ⟨[a,b],rfl,by simp [hdigit ha,hdigit hb]⟩
    · exact ih h
  | case2 a b rest m hb ha ih =>
    simp only [pieces,if_pos,ha,hb,List.mem_cons] at h
    rcases h with h | h
    · cases h
      exact ⟨[a],rfl,by simp [hdigit ha]⟩
    · exact ih h
  | case3 a b rest ha ih =>
    simp only [pieces,if_pos,ha,List.mem_cons] at h
    exact ih (h.resolve_left (fun heq => by cases heq))
  | case4 u a b rest hu ih =>
    rw [pieces_unit hu,List.mem_cons] at h
    exact ih (h.resolve_left (fun heq => by cases heq))
  | case5 a m ha =>
    simp only [pieces,ha,if_pos,List.mem_singleton] at h
    cases h
    exact ⟨[a],rfl,by simp [hdigit ha]⟩
  | case6 u a m ha hu => simp [pieces,ha,hu] at h
  | case7 u a ha => simp [pieces,ha] at h
  | case8 u => simp [pieces] at h
  | case9 => simp [pieces] at h

/-- Pieces as `pieces` makes them: a marker is a percent sign with digits. -/
def Shaped (ps : List Piece) : Prop :=
  ∀ n w, Piece.marker n w ∈ ps → ∃ ds, w = percent :: ds ∧ percent ∉ ds

theorem shaped_pieces (s : QString) : Shaped (pieces s) := fun _ _ h => marker_text h

theorem Shaped.tail {p : Piece} (h : Shaped (p::ps)) : Shaped ps :=
  fun n w hmem => h n w (List.mem_cons_of_mem p hmem)

theorem Shaped.head_text {p : Piece} (h : Shaped (p::ps)) (hn : p.number? = some n) :
    ∃ ds, p.text=percent::ds ∧ percent∉ds := by
  cases p with
  | unit u => cases hn
  | marker m w => exact h m w List.mem_cons_self

theorem fill_cons (p : Piece) (ps : List Piece) :
    fill n x (p::ps)=(if p.number? = some n then x else p.text)++fill n x ps :=
  List.flatMap_cons

theorem fill_first_of_shaped (hshape : Shaped ps) (h : n∈ps.filterMap Piece.number?)
    (x : QString) : ∃ pre post post', ps.flatMap Piece.text=pre++percent::post ∧
      fill n x ps=pre++x++post' := by
  induction ps with
  | nil => cases h
  | cons p ps ih =>
    rw [List.flatMap_cons,fill_cons]
    by_cases hn : p.number? = some n
    · obtain ⟨ds,htext,-⟩ := hshape.head_text hn
      exact ⟨[],ds++ps.flatMap Piece.text,fill n x ps,by rw [htext]; rfl,by
        rw [if_pos hn]
        rfl⟩
    · have hrest : n∈ps.filterMap Piece.number? := by
        obtain ⟨q,hq,hqn⟩ := List.mem_filterMap.mp h
        rcases List.mem_cons.mp hq with rfl | hq
        · exact absurd hqn hn
        · exact List.mem_filterMap.mpr ⟨q,hq,hqn⟩
      obtain ⟨pre,post,post',htext,hfill⟩ := ih hshape.tail hrest
      exact ⟨p.text++pre,post,post',by rw [htext,List.append_assoc],by
        rw [if_neg hn,hfill]
        simp only [List.append_assoc]⟩

theorem fill_first (h : n∈markers s) (x : QString) : ∃ pre post post',
    s=pre++percent::post ∧ fill n x (pieces s)=pre++x++post' := by
  have hfirst := fill_first_of_shaped (shaped_pieces s) h x
  rwa [pieces_text] at hfirst

theorem fill_count_of_shaped (hshape : Shaped ps) (n : Nat) (x : QString) :
    (fill n x ps).count percent+(ps.filterMap Piece.number?).count n =
      (ps.flatMap Piece.text).count percent +
        (ps.filterMap Piece.number?).count n*x.count percent := by
  induction ps with
  | nil => simp [fill]
  | cons p ps ih =>
    have hrest := ih hshape.tail
    rw [fill_cons,List.flatMap_cons,List.count_append,List.count_append]
    by_cases hn : p.number? = some n
    · obtain ⟨ds,htext,hds⟩ := hshape.head_text hn
      rw [if_pos hn,List.filterMap_cons_some hn,List.count_cons_self,htext,
        List.count_cons_self,List.count_eq_zero_of_not_mem hds,Nat.add_mul,Nat.one_mul]
      omega
    · have hcount : ((p::ps).filterMap Piece.number?).count n =
          (ps.filterMap Piece.number?).count n := by
        cases hm : p.number? with
        | none => rw [List.filterMap_cons_none hm]
        | some m =>
          rw [List.filterMap_cons_some hm,List.count_cons_of_ne]
          intro heq
          exact hn (heq ▸ hm)
      rw [if_neg hn,hcount]
      omega

theorem fill_count (s : QString) (n : Nat) (x : QString) :
    (fill n x (pieces s)).count percent+(markers s).count n =
      s.count percent+(markers s).count n*x.count percent := by
  have hcount := fill_count_of_shaped (shaped_pieces s) n x
  rwa [pieces_text] at hcount

theorem unit_mem_pieces {u : UInt16} (hu : u≠percent) (hdigit : digit? u=none) (h : u∈s) :
    Piece.unit u∈pieces s := by
  have hnot : ∀ {v m}, digit? v=some m → u≠v := by
    intro v m hv heq
    rw [← heq,hdigit] at hv
    cases hv
  induction s using pieces.induct with
  | case1 a b rest m n hb ha ih =>
    simp only [List.mem_cons,hu,hnot ha,hnot hb,false_or] at h
    simp [pieces,ha,hb,ih h]
  | case2 a b rest m hb ha ih =>
    simp only [List.mem_cons,hu,hnot ha,false_or] at h
    simp [pieces,ha,hb,ih (List.mem_cons.mpr h)]
  | case3 a b rest ha ih =>
    simp only [List.mem_cons,hu,false_or] at h
    simp [pieces,ha,ih (by simpa using h)]
  | case4 v a b rest hv ih =>
    rw [pieces_unit hv,List.mem_cons]
    exact (List.mem_cons.mp h).imp (fun heq => by rw [heq]) ih
  | case5 a m ha => simp [hu,hnot ha] at h
  | case6 v a m ha hv => simpa [pieces,ha,hv] using h
  | case7 v a ha => simpa [pieces,ha] using h
  | case8 v => simpa [pieces] using h
  | case9 => cases h

theorem mem_arg {u : UInt16} (hu : u≠percent) (hdigit : digit? u=none) (h : u∈s) :
    u∈arg s x := by
  unfold arg
  split
  · exact h
  · refine List.mem_flatMap.mpr ⟨.unit u,unit_mem_pieces hu hdigit h,?_⟩
    exact List.mem_singleton.mpr rfl

theorem mem_of_mem_arg {u : UInt16} (h : u∈arg s x) : u∈s ∨ u∈x := by
  unfold arg at h
  split at h
  · exact .inl h
  · obtain ⟨p,hp,hup⟩ := List.mem_flatMap.mp h
    split_ifs at hup
    · exact .inr hup
    · refine .inl ?_
      rw [← pieces_text s]
      exact List.mem_flatMap.mpr ⟨p,hp,hup⟩

end EmuleQt.Utils.QString
