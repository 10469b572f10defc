import SchemaTree.Proofs.BuilderRuns

/-!
What a program does in the course of time. Objects may answer otherwise at one time than at another;
what each change keeps is kept whatever they answer.
-/

namespace SchemaTree

variable {κ : Type}

structure Moment (κ : Type) where
  answers : Inspect κ
  act : Act κ

namespace Moment

def perform (moment : Moment κ) : Build κ Unit := @Act.perform κ moment.answers moment.act

/-- What is asked of operations at a time, asked of those of a moment. -/
def Each (P : Inspect κ → Heap κ → NodeId → Operation κ → Prop) (h : Heap κ) (moment : Moment κ) :
    Prop :=
  @Act.Each κ moment.answers (P moment.answers) h moment.act

end Moment

namespace Heap

/-- The heap after a course of moments. It goes on after an act that fails. -/
def course (h : Heap κ) (moments : List (Moment κ)) : Heap κ :=
  moments.foldl (fun h moment => (moment.perform.run h).2) h

def CourseEach (P : Inspect κ → Heap κ → NodeId → Operation κ → Prop) (h : Heap κ) :
    List (Moment κ) → Prop
  | [] => True
  | moment :: moments => moment.Each P h ∧ (moment.perform.run h).2.CourseEach P moments

/-- What each change keeps, a course keeps. -/
theorem Invariant.course {s : Scope κ} {I : Heap κ → Prop}
    (hI : ∀ answers : Inspect κ, @Invariant κ answers s I)
    (hregistries : ∀ {h}, I h → ∀ registries, I { h with registries }) {h : Heap κ} (hh : I h)
    (moments : List (Moment κ))
    (hmoments : h.CourseEach (fun answers => @Operation.InScope κ answers s) moments) :
    I (h.course moments) := by
  induction moments generalizing h with
  | nil => exact hh
  | cons moment moments ih =>
      obtain ⟨answers, act⟩ := moment
      exact ih (act.keeps_perform hregistries hh (hI answers) hmoments.1).heap hmoments.2

theorem courseEach_of_forall {P : Inspect κ → Heap κ → NodeId → Operation κ → Prop}
    (hP : ∀ answers h n op, P answers h n op) (h : Heap κ) (moments : List (Moment κ)) :
    h.CourseEach P moments := by
  induction moments generalizing h with
  | nil => trivial
  | cons moment moments ih =>
      exact ⟨@Act.each_of_forall κ moment.answers _ (hP moment.answers) h moment.act, ih _⟩

end Heap

end SchemaTree
