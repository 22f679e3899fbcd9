import Mathlib.Data.List.Infix

/-!
Readers that fail for good: state transformers over a cursor into a sequence that may end in
the middle of what is read.
-/

namespace EmuleQt.Framework

variable {σ α β ι : Type} {failed : σ → Prop} {sees : σ → List ι → Prop}

theorem run_bind (m : StateM σ α) (f : α → StateM σ β) (s : σ) :
    (m >>= f).run s=(f (m.run s).1).run (m.run s).2 := rfl

/-- A failed cursor stays failed. -/
def Sticks (failed : σ → Prop) (m : StateM σ α) : Prop := ∀ s, failed s → failed (m.run s).2

theorem Sticks.pure (a : α) : Sticks failed (pure a : StateM σ α) := fun _ h => h

theorem Sticks.bind {m : StateM σ α} {f : α → StateM σ β} (hm : Sticks failed m)
    (hf : ∀ a,Sticks failed (f a)) : Sticks failed (m >>= f) :=
  fun s h => hf _ _ (hm s h)

theorem Sticks.ite {p : Prop} [Decidable p] {m n : StateM σ α} (hm : Sticks failed m)
    (hn : Sticks failed n) : Sticks failed (if p then m else n) := by
  split
  · exact hm
  · exact hn

/-- `m` takes `xs` off what the cursor sees and makes `a` of it; where less than `xs` is left it
fails. -/
structure Reads (failed : σ → Prop) (sees : σ → List ι → Prop) (m : StateM σ α) (xs : List ι)
    (a : α) : Prop where
  whole : ∀ s rest, sees s (xs ++ rest) → (m.run s).1 = a ∧ sees (m.run s).2 rest
  cut : ∀ s got, sees s got → got <+: xs → got.length < xs.length → failed (m.run s).2

namespace Reads

variable {m : StateM σ α} {f : α → StateM σ β} {xs ys : List ι} {a : α} {b : β}

theorem pure (a : α) : Reads failed sees (pure a : StateM σ α) [] a :=
  ⟨fun _ _ h => ⟨rfl,h⟩,fun _ _ _ _ h => absurd h (Nat.not_lt_zero _)⟩

theorem bind (hm : Reads failed sees m xs a) (hf : Reads failed sees (f a) ys b)
    (hs : ∀ a,Sticks failed (f a)) : Reads failed sees (m >>= f) (xs++ys) b := by
  constructor
  · intro s rest h
    obtain ⟨ha,hn⟩ := hm.whole s (ys++rest) (by simpa using h)
    rw [run_bind,ha]
    exact hf.whole _ _ hn
  · intro s got h hp hl
    rw [run_bind]
    rcases Nat.lt_or_ge got.length xs.length with hlt | hge
    · have hx : got <+: xs := List.prefix_of_prefix_length_le hp (List.prefix_append xs ys) hlt.le
      exact hs _ _ (hm.cut s got h hx hlt)
    · obtain ⟨t,rfl⟩ := List.prefix_of_prefix_length_le (List.prefix_append xs ys) hp hge
      obtain ⟨ha,hn⟩ := hm.whole s t h
      rw [ha]
      have hl' : t.length<ys.length := by simpa using hl
      exact hf.cut _ t hn ((List.prefix_append_right_inj xs).mp hp) hl'

/-- A field that is there only under a condition. -/
theorem ite {p : Prop} [Decidable p] {n : StateM σ α} {a' : α}
    (hm : p → Reads failed sees m xs a) (hn : ¬p → Reads failed sees n ys a') :
    Reads failed sees (if p then m else n) (if p then xs else ys) (if p then a else a') := by
  by_cases hp : p
  · simpa [hp] using hm hp
  · simpa [hp] using hn hp

/-- A reader meets a sequence that begins with what it takes or ends within it. -/
theorem of_chunk (hm : Reads failed sees m xs a) {s : σ} {got rest : List ι} (h : sees s got)
    (hp : got <+: xs++rest) :
    got.length<xs.length ∧ failed (m.run s).2 ∨
      ∃ t, got=xs++t ∧ t <+: rest ∧ (m.run s).1=a ∧ sees (m.run s).2 t := by
  rcases Nat.lt_or_ge got.length xs.length with hlt | hge
  · have hx : got <+: xs := List.prefix_of_prefix_length_le hp (List.prefix_append xs rest) hlt.le
    exact .inl ⟨hlt,hm.cut s got h hx hlt⟩
  · obtain ⟨t,rfl⟩ := List.prefix_of_prefix_length_le (List.prefix_append xs rest) hp hge
    exact .inr ⟨t,rfl,(List.prefix_append_right_inj xs).mp hp,hm.whole s t h⟩

end Reads

end EmuleQt.Framework
