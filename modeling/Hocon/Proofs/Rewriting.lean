import Mathlib.Tactic.SplitIfs
import Hocon.Proofs.Merging

/-!
# Rewriting trees

Merging and joining look at a tree node by node, and at little of each: its kind, whether it is
resolved and what it hides, the text of a scalar.  A change of trees that leaves these alone
(`Rewriting`) may be made before trees are merged or joined, or to what they become: it comes to
the same (`Rewriting.withFallback_of`, `Rewriting.concatenate_of`).
-/

namespace Hocon

/-! ### Entries -/

namespace Entries

variable {α β : Type}

/-- The entries with what becomes of each value. -/
def mapValues (f : α → β) (es : Entries α) : Entries β := es.map fun e => (e.1, f e.2)

variable (f : α → β) (es : Entries α) (key : String)

@[simp] theorem keys_mapValues : keys (mapValues f es) = keys es := by
  rw [keys, mapValues, List.map_map]
  rfl

@[simp] theorem get?_mapValues : get? (mapValues f es) key = (get? es key).map f := by
  induction es with
  | nil => rfl
  | cons e es ih =>
    show (if e.1 = key then some (f e.2) else get? (mapValues f es) key) = _
    rw [get?, ih]
    split <;> rfl

@[simp] theorem has_mapValues : has (mapValues f es) key = has es key := by
  rw [has, get?_mapValues, Option.isSome_map, has]

@[simp] theorem put_mapValues (value : α) :
    put (mapValues f es) key (f value) = mapValues f (put es key value) := by
  induction es with
  | nil => rfl
  | cons e es ih =>
    show (if e.1 = key then (key, f value) :: mapValues f es
      else (e.1, f e.2) :: put (mapValues f es) key (f value)) = _
    rw [put, ih]
    split <;> rfl

end Entries

open Value

/-! ### What merging and joining look at -/

/-- A change of trees, and of origins along with them, which nothing shows that merging and joining
look at; new nodes of objects, lists and what waits are changed in their parts. -/
structure Rewriting where
  of : Value → Value
  origin : Origin → Origin
  origin_of : ∀ v : Value, (of v).origin = origin v.origin
  origin_merge : ∀ a b, origin (a.merge b) = (origin a).merge (origin b)
  /-- What is made of nothing has an origin all the same. -/
  origin_nothing : origin (mergedOrigin []) = mergedOrigin []
  fields?_of : ∀ v : Value, (of v).fields? = v.fields?.map (Entries.mapValues of)
  items?_of : ∀ v : Value, (of v).items? = v.items?.map (List.map of)
  layers_of : ∀ v : Value, (of v).layers = v.layers.map of
  pieces_of : ∀ v : Value, flattenPieces [of v] = (flattenPieces [v]).map of
  isPending_of : ∀ v : Value, (of v).isPending = v.isPending
  isObjectValued_of : ∀ v : Value, (of v).isObjectValued = v.isObjectValued
  isResolved_of : ∀ v : Value, (of v).isResolved = v.isResolved
  ignoresFallbacks_of : ∀ v : Value, (of v).ignoresFallbacks = v.ignoresFallbacks
  isBlankText_of : ∀ v : Value, (of v).isBlankText = v.isBlankText
  joinText?_of : ∀ nullIsEmpty v, joinText? nullIsEmpty (of v) = joinText? nullIsEmpty v
  new_object : ∀ o closed fs,
    of (object { origin := o } closed fs)
      = object { origin := origin o } closed (Entries.mapValues of fs)
  new_list : ∀ o xs, of (ofItems o xs) = ofItems (origin o) (xs.map of)
  new_text : ∀ o t, of (ofText o t) = ofText (origin o) t
  new_concat : ∀ o ps, of (concat { origin := o } ps) = concat { origin := origin o } (ps.map of)
  new_merge : ∀ o k ls,
    of (merge { origin := o } k ls) = merge { origin := origin o } k (ls.map of)

namespace Rewriting

variable (R : Rewriting)

/-- An object stays an object, and as closed as it was. -/
theorem exists_object (p : Provenance) (closed : Bool) (fs : Entries Value) :
    ∃ q, R.of (object p closed fs) = object q closed (Entries.mapValues R.of fs)
      ∧ q.origin = R.origin p.origin := by
  obtain ⟨q, closed', eq⟩ := eq_object_of_fields? (R.fields?_of (object p closed fs))
  have same := R.ignoresFallbacks_of (object p closed fs)
  have origin := R.origin_of (object p closed fs)
  rw [eq] at same origin
  exact ⟨q, (show closed' = closed from same) ▸ eq, origin⟩

theorem isEmptyObject_of (v : Value) : (R.of v).isEmptyObject = v.isEmptyObject := by
  have fields := R.fields?_of v
  cases v with
  | object p closed fs =>
    obtain ⟨q, eq, -⟩ := R.exists_object p closed fs
    rw [eq]
    cases fs <;> rfl
  | _ => cases hu : R.of _ <;> first | rfl | (rw [hu] at fields; cases fields)

/-! ### Merging -/

theorem map_origin (vs : List Value) :
    (vs.map R.of).map Value.origin = (vs.map Value.origin).map R.origin := by
  rw [List.map_map, List.map_map]
  exact List.map_congr_left fun v _ => R.origin_of v

theorem mergeAll?_of (os : List Origin) :
    Origin.mergeAll? (os.map R.origin) = (Origin.mergeAll? os).map R.origin := by
  cases os with
  | nil => rfl
  | cons o os =>
    show some ((os.map R.origin).foldl Origin.merge (R.origin o))
      = some (R.origin (os.foldl Origin.merge o))
    induction os generalizing o with
    | nil => rfl
    | cons o' os ih => rw [List.map_cons, List.foldl_cons, List.foldl_cons, ← R.origin_merge, ih]

theorem mergedOrigin_of (vs : List Value) :
    mergedOrigin (vs.map R.of) = R.origin (mergedOrigin vs) := by
  have telling : (vs.map R.of).filter (fun v => !v.isEmptyObject)
      = (vs.filter fun v => !v.isEmptyObject).map R.of := by
    rw [List.filter_map]
    exact congrArg _ (List.filter_congr fun v _ => congrArg _ (R.isEmptyObject_of v))
  cases vs with
  | nil => exact R.origin_nothing.symm
  | cons v vs =>
    have first : ((v :: vs).map R.of).head?.map Value.origin = some (R.origin v.origin) :=
      congrArg some (R.origin_of v)
    simp only [mergedOrigin, telling, map_origin, mergeAll?_of, first]
    cases Origin.mergeAll? (((v :: vs).filter fun v => !v.isEmptyObject).map Value.origin) <;> rfl

theorem stack_of (top : Value) (ls : List Value) :
    R.of (stack top ls) = stack (R.of top) (ls.map R.of) := by
  unfold stack
  rw [R.new_merge, mergedOrigin_of, R.isObjectValued_of]

theorem close?_of (v : Value) : (R.of v).close? = v.close?.map R.of := by
  cases hf : v.fields? with
  | none =>
    have fields : (R.of v).fields? = none := by rw [R.fields?_of, hf]; rfl
    have open_ {u : Value} (h : u.fields? = none) : u.close? = none := by
      cases u <;> first | rfl | cases h
    rw [open_ fields, open_ hf]
    rfl
  | some fs =>
    obtain ⟨p, closed, rfl⟩ := eq_object_of_fields? hf
    obtain ⟨q, eq, origin⟩ := R.exists_object p closed fs
    rw [eq]
    cases closed with
    | true => rfl
    | false => rw [close?, close?, Option.map_some, R.new_object, origin]

/-- Fields over fields, if it makes no difference to putting one value over another. -/
theorem absorbFields_of {own : Entries Value}
    (h : ∀ f ∈ own, ∀ w : Value, (R.of f.2).absorb? (R.of w) = (f.2.absorb? w).map R.of)
    (other : Entries Value) :
    absorbFields (Entries.mapValues R.of own) (Entries.mapValues R.of other)
      = (Entries.mapValues R.of (absorbFields own other).1, (absorbFields own other).2) := by
  induction own generalizing other with
  | nil => rfl
  | cons f own ih =>
    obtain ⟨key, v⟩ := f
    obtain ⟨hv, h⟩ := List.forall_mem_cons.1 h
    show absorbFields ((key, R.of v) :: Entries.mapValues R.of own) _ = _
    rw [absorbFields, absorbFields, Entries.get?_mapValues]
    cases Entries.get? other key with
    | none =>
      simp only [Option.map_none, Entries.put_mapValues]
      exact ih h _
    | some w =>
      simp only [Option.map_some, hv w]
      cases v.absorb? w with
      | none =>
        simp only [Option.map_none, Entries.put_mapValues]
        exact ih h _
      | some u => simp only [Option.map_some, Entries.put_mapValues, ih h]

theorem absorb?_object_of {p q : Provenance} {closed closed' : Bool} {own : Entries Value}
    (h : ∀ f ∈ own, ∀ w : Value, (R.of f.2).absorb? (R.of w) = (f.2.absorb? w).map R.of)
    (other : Entries Value) :
    (R.of (object p closed own)).absorb? (R.of (object q closed' other))
      = ((object p closed own).absorb? (object q closed' other)).map R.of := by
  have origin : mergedOrigin [R.of (object p closed own), R.of (object q closed' other)]
      = R.origin (mergedOrigin [object p closed own, object q closed' other]) :=
    R.mergedOrigin_of [_, _]
  have more : (Entries.mapValues R.of other).any
        (fun f => !Entries.has (Entries.mapValues R.of own) f.1)
      = other.any fun f => !Entries.has own f.1 := by
    rw [Entries.mapValues, List.any_map]
    simp only [Function.comp_def, Entries.has_mapValues]
  obtain ⟨p', hp, origin'⟩ := R.exists_object p closed own
  obtain ⟨q', hq, -⟩ := R.exists_object q closed' other
  rw [hp, hq] at origin ⊢
  rw [absorb?_object, absorb?_object]
  simp only [R.absorbFields_of h, origin, origin', more]
  split
  · rfl
  split
  · rw [Option.map_some, R.new_object]
  split
  · rw [Option.map_some, R.new_object]
  · rfl

theorem absorb?_of (v w : Value) : (R.of v).absorb? (R.of w) = (v.absorb? w).map R.of := by
  induction v using parts_induction generalizing w with
  | node v ih =>
    have fields {u : Value} (h : u.fields? = none) : (R.of u).fields? = none := by
      rw [R.fields?_of, h]
      rfl
    cases hf : v.fields? with
    | none =>
      rw [absorb?_of_fields?_eq_none hf, absorb?_of_fields?_eq_none (fields hf)]
      simp only [R.ignoresFallbacks_of, R.isPending_of, R.layers_of]
      split
      · rfl
      split
      · rw [Option.map_some, stack_of, List.map_append]
      · rw [Option.map_some, stack_of, List.map_append]
        rfl
    | some own =>
      obtain ⟨p, closed, rfl⟩ := eq_object_of_fields? hf
      cases hg : w.fields? with
      | some other =>
        obtain ⟨q, closed', rfl⟩ := eq_object_of_fields? hg
        exact R.absorb?_object_of (fun f hf => ih f.2 (mem_parts_of_mem_fields hf)) other
      | none =>
        have resolved := R.isResolved_of (object p closed own)
        have closing := R.close?_of (object p closed own)
        have waiting (ls : List Value) := R.stack_of (object p closed own) ls
        have top (ls : List Value) := List.map_cons (f := R.of) (a := object p closed own) (l := ls)
        obtain ⟨p', hp, -⟩ := R.exists_object p closed own
        rw [hp] at resolved closing
        simp only [hp] at waiting top
        rw [hp, absorb?_object_of_fields?_eq_none hg, absorb?_object_of_fields?_eq_none (fields hg)]
        simp only [resolved, R.isPending_of, R.layers_of]
        split
        · rfl
        split
        · rw [Option.map_some, waiting, top]
        split
        · exact closing
        · rw [Option.map_some, waiting, top]
          rfl

/-- **Merging**: trees may be changed before it, or what they are merged to. -/
theorem withFallback_of (v w : Value) :
    (R.of v).withFallback (R.of w) = R.of (v.withFallback w) := by
  unfold withFallback
  rw [absorb?_of]
  cases v.absorb? w <;> rfl

theorem mergeLayers?_of (ls : List Value) :
    mergeLayers? (ls.map R.of) = (mergeLayers? ls).map R.of := by
  cases ls with
  | nil => rfl
  | cons l ls =>
    show some ((ls.map R.of).foldl withFallback (R.of l)) = some (R.of (ls.foldl withFallback l))
    induction ls generalizing l with
    | nil => rfl
    | cons l' ls ih =>
      rw [List.map_cons, List.foldl_cons, List.foldl_cons, withFallback_of]
      exact ih _

/-! ### Joining -/

theorem joinScalars_of (nullIsEmpty : Bool) (v w : Value) :
    (joinScalars nullIsEmpty (R.of v) (R.of w)).toOption
      = (joinScalars nullIsEmpty v w).toOption.map (Option.map R.of) := by
  unfold joinScalars
  simp only [R.isObjectValued_of, R.items?_of, R.isBlankText_of, R.isPending_of,
    R.joinText?_of, R.origin_of, Option.isSome_map]
  split_ifs
  · rfl
  · rfl
  · split
    · show some (some (ofText ((R.origin v.origin).merge (R.origin w.origin)) _))
        = some (some (R.of (ofText (v.origin.merge w.origin) _)))
      rw [R.new_text, R.origin_merge]
    · rfl

theorem join?_of (nullIsEmpty : Bool) (v w : Value) :
    (join? nullIsEmpty (R.of v) (R.of w)).toOption
      = (join? nullIsEmpty v w).toOption.map (Option.map R.of) := by
  by_cases objects : (v.isObjectValued && w.isObjectValued) = true
  all_goals
    have objects' := objects
    rw [← R.isObjectValued_of v, ← R.isObjectValued_of w] at objects'
  · rw [join?_of_objects objects, join?_of_objects objects', withFallback_of]
    rfl
  have scalars (lists : v.items? = none ∨ w.items? = none) :
      (join? nullIsEmpty (R.of v) (R.of w)).toOption
        = (join? nullIsEmpty v w).toOption.map (Option.map R.of) := by
    rw [join?_of_scalars objects lists, join?_of_scalars objects'
      (by simpa only [R.items?_of, Option.map_eq_none_iff] using lists)]
    exact R.joinScalars_of nullIsEmpty v w
  cases hx : v.items? with
  | none => exact scalars (.inl hx)
  | some xs =>
    cases hy : w.items? with
    | none => exact scalars (.inr hy)
    | some ys =>
      rw [join?_of_lists objects hx hy,
        join?_of_lists objects' (by rw [R.items?_of, hx]; rfl) (by rw [R.items?_of, hy]; rfl),
        R.origin_of, R.origin_of, ← R.origin_merge, ← List.map_append, ← R.new_list]
      rfl

theorem flattenPieces_of (ps : List Value) :
    flattenPieces (ps.map R.of) = (flattenPieces ps).map R.of := by
  induction ps with
  | nil => rfl
  | cons p ps ih =>
    have split (x : Value) (xs : List Value) :
        flattenPieces (x :: xs) = flattenPieces [x] ++ flattenPieces xs := by
      unfold flattenPieces
      rw [List.flatMap_cons, List.flatMap_singleton]
    rw [List.map_cons, split, split p, List.map_append, ih, R.pieces_of]

theorem joinOnto_of (nullIsEmpty : Bool) (done todo : List Value) :
    (joinOnto nullIsEmpty (done.map R.of) (todo.map R.of)).toOption
      = (joinOnto nullIsEmpty done todo).toOption.map (List.map R.of) := by
  induction todo generalizing done with
  | nil =>
    rw [List.map_nil, joinOnto, joinOnto, ← List.map_reverse]
    rfl
  | cons right rest ih =>
    cases done with
    | nil => exact ih [right]
    | cons left before =>
      have joined := R.join?_of nullIsEmpty left right
      rw [List.map_cons, List.map_cons, joinOnto, joinOnto]
      generalize join? nullIsEmpty (R.of left) (R.of right) = x at joined ⊢
      generalize join? nullIsEmpty left right = y at joined ⊢
      cases y with
      | error =>
        cases x with
        | error => rfl
        | ok => cases joined
      | ok u =>
        cases x with
        | error => cases joined
        | ok u' =>
          cases joined
          cases u with
          | none => exact ih (right :: left :: before)
          | some v => exact ih (v :: before)

theorem joinRun_of (nullIsEmpty : Bool) (ps : List Value) :
    (joinRun nullIsEmpty (ps.map R.of)).toOption
      = (joinRun nullIsEmpty ps).toOption.map (List.map R.of) := by
  unfold joinRun
  rw [List.length_map, flattenPieces_of]
  split
  · rfl
  · exact R.joinOnto_of nullIsEmpty [] _

/-- **Joining**: pieces may be changed before it, or what they are joined to. -/
theorem concatenate_of (ps : List Value) :
    (concatenate (ps.map R.of)).toOption = (concatenate ps).toOption.map (Option.map R.of) := by
  have run := R.joinRun_of false ps
  unfold concatenate
  generalize joinRun false (ps.map R.of) = x at run ⊢
  generalize joinRun false ps = y at run ⊢
  cases y with
  | error =>
    cases x with
    | error => rfl
    | ok => cases run
  | ok vs =>
    cases x with
    | error => cases run
    | ok ws =>
      cases run
      match vs with
      | [] => rfl
      | [v] => rfl
      | v :: w :: rest =>
        have merged : (Origin.mergeAll? (((v :: w :: rest).map R.of).map Value.origin)).getD
            (.named "concatenation")
              = R.origin ((Origin.mergeAll? ((v :: w :: rest).map Value.origin)).getD
                (.named "concatenation")) := by
          rw [R.map_origin, mergeAll?_of]
          rfl
        rw [List.map_cons, List.map_cons] at merged
        show some (some (concat { origin := _ } _)) = some (some (R.of (concat { origin := _ } _)))
        rw [R.new_concat, ← merged]
        rfl

end Rewriting

end Hocon
