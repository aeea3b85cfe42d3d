import Hocon.Value

/-!
# Merging with a fallback

`v.withFallback w` puts `w` underneath `v`: the fields that `v` lacks come from `w`, common
fields are merged in turn, and anything but an object hides what is below it.  A merge that
hangs on a reference is kept as a stack of layers.

`Value.absorb?` tells in addition whether anything changes: it gives nothing where `v` stays
as it is, the very same node.
-/

namespace Hocon.Value

/-- The layers that a value stands for. -/
def layers : Value → List Value
  | merge _ _ ls => ls
  | v => [v]

/-- The origin of a value made of several; objects without fields do not count beside
others. -/
def mergedOrigin (vs : List Value) : Origin :=
  let telling := vs.filter fun v => !v.isEmptyObject
  ((Origin.mergeAll? (telling.map origin)).or (vs.head?.map origin)).getD (.named "empty merge")

/-- A merge of layers that has to wait, with the flavour of the topmost. -/
def stack (top : Value) (layers : List Value) : Value :=
  let kind := if top.isObjectValued then .object else .value
  merge { origin := mergedOrigin layers } kind layers

/-- What a resolved value becomes over a value that is no object: an object is closed, all
else stays as it is. -/
def close? : Value → Option Value
  | object p false fs => some (object { origin := p.origin } true fs)
  | _ => none

mutual

/-- What `v` becomes over a fallback; nothing if it stays as it is. -/
def absorb? : Value → Value → Option Value
  | object p closed own, w =>
    if closed then none
    else
      match w with
      | object q closed' other =>
        let (fields, changed) := absorbFields own other
        -- a field that only the fallback has makes the object a new one
        if changed || other.any (fun f => !Entries.has own f.1) then
          some (object { origin := mergedOrigin [object p closed own, object q closed' other] }
            closed' fields)
        -- what the fallback hides from below is hidden here too
        else if closed' then some (object { origin := p.origin } true fields)
        else none
      | w =>
        let v := object p closed own
        if w.isPending then some (stack v (v :: w.layers))
        else if v.isResolved then v.close?
        -- an object that waits may turn out to need the fallback
        else some (stack v [v, w])
  | v, w =>
    if v.ignoresFallbacks then none
    else if w.isPending then some (stack v (v.layers ++ w.layers))
    else some (stack v (v.layers ++ [w]))

/-- The fallback's fields with an object's own fields merged over them, in order, and
whether any of the own fields changed. -/
def absorbFields : Entries Value → Entries Value → Entries Value × Bool
  | [], other => (other, false)
  | (key, v) :: own, other =>
    match Entries.get? other key with
    | none => absorbFields own (Entries.put other key v)
    | some w =>
      match absorb? v w with
      | none => absorbFields own (Entries.put other key v)
      | some u => ((absorbFields own (Entries.put other key u)).1, true)

end

/-! ### The cases -/

theorem eq_object_of_fields? {v : Value} {fs : Entries Value} (h : v.fields? = some fs) :
    ∃ p closed, v = object p closed fs := by
  cases v <;> simp_all [fields?]

/-- An object over an object: their fields are merged. -/
theorem absorb?_object (p q : Provenance) (closed closed' : Bool) (own other : Entries Value) :
    (object p closed own).absorb? (object q closed' other) =
      if closed then none
      else
        let (fields, changed) := absorbFields own other
        if changed || other.any (fun f => !Entries.has own f.1) then
          some (object { origin := mergedOrigin [object p closed own, object q closed' other] }
            closed' fields)
        else if closed' then some (object { origin := p.origin } true fields)
        else none := by
  rw [absorb?]

/-- An object over anything else: it waits, or it is closed. -/
theorem absorb?_object_of_fields?_eq_none {p : Provenance} {closed : Bool} {own : Entries Value}
    {w : Value} (h : w.fields? = none) :
    (object p closed own).absorb? w =
      let v := object p closed own
      if closed then none
      else if w.isPending then some (stack v (v :: w.layers))
      else if v.isResolved then v.close?
      else some (stack v [v, w]) := by
  cases w <;> simp [fields?] at h <;> rw [absorb?] <;> nofun

/-- Anything else on top: it hides the fallback, or it waits. -/
theorem absorb?_of_fields?_eq_none {v w : Value} (h : v.fields? = none) :
    v.absorb? w =
      if v.ignoresFallbacks then none
      else if w.isPending then some (stack v (v.layers ++ w.layers))
      else some (stack v (v.layers ++ [w])) := by
  cases v <;> simp [fields?] at h <;> rw [absorb?] <;> nofun

/-! ### Fallbacks -/

/-- The value with a fallback underneath. -/
def withFallback (v w : Value) : Value := (v.absorb? w).getD v

theorem isObjectValued_stack {top : Value} (h : top.isObjectValued = true) (ls : List Value) :
    (stack top ls).isObjectValued = true := by
  simp only [stack, h, if_true]
  rfl

/-- What is put underneath an object leaves it one. -/
theorem isObjectValued_withFallback {v : Value} (h : v.isObjectValued = true) (w : Value) :
    (v.withFallback w).isObjectValued = true := by
  unfold withFallback
  cases hu : v.absorb? w with
  | none => exact h
  | some u =>
    cases hv : v.fields? with
    | none =>
      rw [absorb?_of_fields?_eq_none hv] at hu
      split at hu
      · cases hu
      split at hu <;> cases hu <;> exact isObjectValued_stack h _
    | some own =>
      obtain ⟨p, closed, rfl⟩ := eq_object_of_fields? hv
      cases hw : w.fields? with
      | none =>
        rw [absorb?_object_of_fields?_eq_none hw] at hu
        simp only [] at hu
        split at hu
        · cases hu
        split at hu
        · cases hu
          exact isObjectValued_stack h _
        split at hu
        · unfold close? at hu
          split at hu <;> cases hu
          rfl
        · cases hu
          exact isObjectValued_stack h _
      | some other =>
        obtain ⟨q, closed', rfl⟩ := eq_object_of_fields? hw
        rw [absorb?_object] at hu
        simp only [] at hu
        split at hu
        · cases hu
        split at hu
        · cases hu
          rfl
        · split at hu <;> cases hu
          rfl

/-- The merge of layers, the topmost first. -/
def mergeLayers? : List Value → Option Value
  | [] => none
  | v :: vs => some (vs.foldl withFallback v)

end Hocon.Value
