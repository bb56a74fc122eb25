import Trance.Proofs.Jumps.Linked

/-!
# A check comes back to its place

While a check is in a block, in a loop or in the body of a suggestion, it is at another place: in
more frames, under more loops, and within reach of other labels. Whatever it finds there, it comes
back to the place where it was, and everything that it has reported is still reported.

Nothing saves the place and puts it back. Loops are counted up before a body and down behind it,
labels are pushed and popped, and declarations are put on a list until their bodies are checked.
That this comes out even is what each step has to keep to. -/

namespace Trance

open Check List

/-- A check is back at the place where it was, and what has been reported is still reported. -/
structure Checker.Returns (c c' : Checker) : Prop where
  frames : c'.scopes.frames.map Frame.kind = c.scopes.frames.map Frame.kind
  loops : c'.context.loops = c.context.loops
  labels : c'.context.labels = c.context.labels
  enclosing : c'.context.enclosing = c.context.enclosing
  baseDir : c'.baseDir = c.baseDir
  errors : c.report.errors <+: c'.report.errors
  warnings : c.report.warnings <+: c'.report.warnings

theorem Frame.kinds_of_extends {frames frames' : List Frame}
    (h : List.Forall₂ Frame.Extends frames frames') :
    frames'.map Frame.kind = frames.map Frame.kind := by
  induction h with
  | nil => rfl
  | cons hframe _ ih => rw [map_cons, map_cons, hframe.1, ih]

theorem Checker.Grows.returns {c c' : Checker} (h : c.Grows c') : c.Returns c' :=
  ⟨Frame.kinds_of_extends h.scopes.frames, by rw [h.context], by rw [h.context], by rw [h.context],
    h.baseDir, h.errors, h.warnings⟩

/-- **A check comes back to its place.** After the check of a program, of a statement and of an
expression, in every state, the check is where it was, and what had been reported is still reported,
in front of what is new. A program leaves no body that was put off behind, and a statement or an
expression neither puts one off nor takes one. When a loop is counted off there is a loop to count
off, and the labels that are popped are those that were pushed. -/
theorem Linker.check_comes_back (linker : Linker) :
    (∀ (p : Program) (c : Checker), c.Returns (linker.check p c) ∧
      (linker.check p c).deferred = []) ∧
    (∀ (bound : Nat) (s : Stmt) (c : Checker), c.Returns (c.after (stmt (linker.link bound) s)) ∧
      (c.after (stmt (linker.link bound) s)).deferred = c.deferred) ∧
    (∀ (e : Expr) (c : Checker), c.Returns (c.after (infer e)) ∧
      (c.after (infer e)).deferred = c.deferred) ∧
    ∀ (bound : Nat) (body : List Stmt) (c : Checker),
      0 < (c.inLoop.after (block (linker.link bound) body)).context.loops ∧
      ∀ labels, ((c.withLabels labels).after (stmts (linker.link bound) body)).context.labels =
        labels :: c.context.labels := by
  refine ⟨fun p c => ⟨(grows (program (linker.link linker.bound) p) c).returns, ?_⟩,
    fun bound s c => ⟨(grows (stmt (linker.link bound) s) c).returns, deferred_after _ c⟩,
    fun e c => ⟨(grows (infer e) c).returns, deferred_after _ c⟩, fun bound body c =>
      ⟨?_, fun labels => ?_⟩⟩
  · exact deferred_program (linker.link linker.bound) p c
  · have hloops := (grows (block (linker.link bound) body) c.inLoop).returns.loops
    rw [Checker.after, hloops]
    exact Nat.succ_pos _
  · exact (grows (stmts (linker.link bound) body) (c.withLabels labels)).returns.labels

end Trance
