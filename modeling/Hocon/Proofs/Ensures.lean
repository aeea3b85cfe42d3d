import Hocon.Document.Grammar
import Hocon.Resolution

/-!
# What a run ensures

Reading and resolving are computations that may fail and that keep a state, also when they
fail.  `Ensures x m Q` says of the run of `x` from the state `m` that `Q` holds of its outcome
and of the state it leaves.  Every run comes to an end, so this is total correctness: what is
ensured says in particular how a run may fail.

There is one rule for each way in which these computations are put together.  A proof about a
function follows its text with these rules and never looks at the run itself.
-/

namespace Hocon

variable {ε σ α β : Type} {m : σ}

/-- The run of `x` from the state `m` ends in an outcome and a state with the property `Q`. -/
def Ensures (x : ExceptT ε (StateM σ) α) (m : σ) (Q : Except ε α → σ → Prop) : Prop :=
  Q (x.run.run m).1 (x.run.run m).2

namespace Ensures

variable {x : ExceptT ε (StateM σ) α} {P Q : Except ε α → σ → Prop} {R : Except ε β → σ → Prop}

/-- What is ensured may be weakened. -/
theorem mono (hx : Ensures x m P) (h : ∀ r m', P r m' → Q r m') : Ensures x m Q :=
  h _ _ hx

/-! ### Ends -/

protected theorem pure {a : α} (h : Q (.ok a) m) :
    Ensures (pure a : ExceptT ε (StateM σ) α) m Q := h

protected theorem throw {e : ε} (h : Q (.error e) m) :
    Ensures (throw e : ExceptT ε (StateM σ) α) m Q := h

/-! ### Putting together -/

/-- One computation behind another: a failure of the first is the outcome of both. -/
protected theorem bind {f : α → ExceptT ε (StateM σ) β} (hx : Ensures x m P)
    (ok : ∀ a m', P (.ok a) m' → Ensures (f a) m' R)
    (error : ∀ e m', P (.error e) m' → R (.error e) m') : Ensures (x >>= f) m R := by
  unfold Ensures at hx ⊢
  simp only [ExceptT.run_bind, StateT.run_bind]
  rcases h : x.run.run m with ⟨e | a, m'⟩
  · rw [h] at hx
    exact error e m' hx
  · rw [h] at hx
    exact ok a m' hx

/-- A failure that is looked at. -/
protected theorem tryCatch {f : ε → ExceptT ε (StateM σ) α} (hx : Ensures x m P)
    (ok : ∀ a m', P (.ok a) m' → Q (.ok a) m')
    (error : ∀ e m', P (.error e) m' → Ensures (f e) m' Q) :
    Ensures (tryCatch x f) m Q := by
  unfold Ensures at hx ⊢
  simp only [ExceptT.run_tryCatch, StateT.run_bind]
  rcases h : x.run.run m with ⟨e | a, m'⟩
  · rw [h] at hx
    exact error e m' hx
  · rw [h] at hx
    exact ok a m' hx

/-! ### The state -/

/-- Reading the state. -/
theorem get_bind {f : σ → ExceptT ε (StateM σ) β} (h : Ensures (f m) m R) :
    Ensures (get >>= f) m R := h

protected theorem modify {f : σ → σ} {Q : Except ε PUnit → σ → Prop} (h : Q (.ok ⟨⟩) (f m)) :
    Ensures (modify f : ExceptT ε (StateM σ) PUnit) m Q := h

protected theorem modifyGet {f : σ → α × σ} (h : Q (.ok (f m).1) (f m).2) :
    Ensures (modifyGet f : ExceptT ε (StateM σ) α) m Q := h

end Ensures

end Hocon
