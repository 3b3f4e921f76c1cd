/-!
# Transducers

`transduce step s as` runs a machine over the list `as` from the state `s` and
collects what every step puts out, together with the state it ends in. The
analyses that carry a state along the tour of a body have this form.
-/

namespace ProgramSafety

def transduce {σ α β : Type} (step : σ → α → σ × List β) : σ → List α → σ × List β
  | s, [] => (s, [])
  | s, a :: as =>
    let (s', out) := step s a
    let (s'', outs) := transduce step s' as
    (s'', out ++ outs)

section Transduce

variable {σ α β : Type} (step : σ → α → σ × List β)

@[simp] theorem transduce_nil (s : σ) : transduce step s [] = (s, []) := rfl

theorem transduce_cons (s : σ) (a : α) (as : List α) :
    transduce step s (a :: as) =
      ((transduce step (step s a).1 as).1,
        (step s a).2 ++ (transduce step (step s a).1 as).2) := rfl

/-- A run over two lists is a run over the first, continued over the second. -/
theorem transduce_append (s : σ) (as bs : List α) :
    transduce step s (as ++ bs) =
      ((transduce step (transduce step s as).1 bs).1,
        (transduce step s as).2 ++ (transduce step (transduce step s as).1 bs).2) := by
  induction as generalizing s with
  | nil => simp
  | cons a as ih => simp [transduce_cons, ih]

theorem transduce_around (s : σ) (a b : α) (as : List α) :
    transduce step s (a :: as ++ [b]) =
      ((step (transduce step (step s a).1 as).1 b).1,
        (step s a).2 ++ (transduce step (step s a).1 as).2 ++
          (step (transduce step (step s a).1 as).1 b).2) := by
  simp [transduce_cons, transduce_append]

variable {step}

/-- A machine that comes back to its state after each piece of a list comes back
to it after the whole. -/
theorem transduce_flatMap_of_fixed {γ : Type} {s : σ} {f : γ → List α} {out : γ → List β}
    {as : List γ} (h : ∀ a ∈ as, transduce step s (f a) = (s, out a)) :
    transduce step s (as.flatMap f) = (s, as.flatMap out) := by
  induction as with
  | nil => rfl
  | cons a as ih =>
    have hrest := ih fun b hb => h b (List.mem_cons_of_mem _ hb)
    rw [List.flatMap_cons, transduce_append, h a List.mem_cons_self, hrest, List.flatMap_cons]

end Transduce

end ProgramSafety
