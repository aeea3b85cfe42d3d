import Mathlib
import Hocon.Value.Render
import Hocon.Proofs.Rendering

/-!
# The order of written keys

Keys are written in the order `keyOrder`, and the order in which an object holds them should not
show in its text.  It does not if the order is a total one on the keys of the object:
`keyOrder` compares any two keys in both directions alike, but it is not transitive.  Two keys
of digits are compared by value only if both are within the limit, and else by length.  A key
within the limit may have any number of leading zeros, and so be longer than a key beyond it.
Three keys then stand in a circle, and these are the only circles (`keyOrder_trans_iff`).

Where there are none, the fields in order are a list that depends on nothing but the fields
(`sortFields_eq_of_perm`), and so is the text of the tree.
-/

namespace Hocon

namespace Value

/-! ### Kinds of keys -/

/-- How a key is compared. -/
inductive KeyKind
  /-- Digits within the limit, by their value. -/
  | small
  /-- Digits beyond the limit, by their number. -/
  | large
  /-- Any other key, by its characters. -/
  | word
  deriving DecidableEq

/-- The value of the digits of a key. -/
def digitsValue (s : String) : Nat := ofDigits s.toList

def keyKind (s : String) : KeyKind :=
  if isDigits s then (if digitsValue s < digitsLimit then .small else .large) else .word

/-- Keys by their value, and those of one value by their characters. -/
def byValue : String → String → Ordering := compareLex (compareOn digitsValue) compare

/-- Keys by their length, and those of one length by their characters. -/
def byLength : String → String → Ordering := compareLex (compareOn String.length) compare

/-- How keys of two kinds compare. -/
def orderOf : KeyKind → KeyKind → String → String → Ordering
  | .small, .small => byValue
  | .word, .word => compare
  | .word, _ => fun _ _ => .gt
  | _, .word => fun _ _ => .lt
  | _, _ => byLength

theorem keyOrder_eq (a b : String) : keyOrder a b = orderOf (keyKind a) (keyKind b) a b := by
  cases ha : isDigits a <;> cases hb : isDigits b
  case true.true =>
    by_cases hm : ofDigits a.toList < digitsLimit <;> by_cases hn : ofDigits b.toList < digitsLimit
    all_goals
      simp only [keyOrder, keyKind, digitsValue, ha, hb, hm, hn, decide_true, decide_false,
        Bool.and_true, Bool.and_false, if_true, if_false, Bool.false_eq_true]
      rfl
  case false.false =>
    simp only [keyOrder, keyKind, ha, hb, if_false, Bool.false_eq_true]
    rfl
  all_goals
    simp only [keyOrder, keyKind, ha, hb, if_true, if_false, Bool.false_eq_true]
    split <;> rfl

instance : Std.TransCmp byValue := inferInstanceAs (Std.TransCmp (compareLex _ _))

instance : Std.TransCmp byLength := inferInstanceAs (Std.TransCmp (compareLex _ _))

/-- Whatever is compared first, only a key itself is equal to it. -/
theorem compareLex_eq_iff (f : String → Nat) {a b : String} :
    compareLex (compareOn f) compare a b = .eq ↔ a = b := by
  constructor
  · intro h
    exact Std.LawfulEqCmp.eq_of_compare (Ordering.then_eq_eq.1 h).2
  · rintro rfl
    exact Std.ReflCmp.compare_self

/-! ### Any two keys -/

theorem keyOrder_swap (a b : String) : (keyOrder a b).swap = keyOrder b a := by
  rw [keyOrder_eq, keyOrder_eq b]
  cases keyKind a <;> cases keyKind b <;> simp only [orderOf, Ordering.swap_lt, Ordering.swap_gt]
  all_goals exact Std.OrientedCmp.eq_swap.symm

theorem keyOrder_eq_iff {a b : String} : keyOrder a b = .eq ↔ a = b := by
  constructor
  · intro h
    rw [keyOrder_eq] at h
    cases ha : keyKind a <;> cases hb : keyKind b <;> rw [ha, hb] at h <;>
      simp only [orderOf, reduceCtorEq] at h
    case small.small => exact (compareLex_eq_iff _).1 h
    case word.word => exact Std.LawfulEqCmp.eq_of_compare h
    all_goals exact (compareLex_eq_iff _).1 h
  · rintro rfl
    rw [keyOrder_eq]
    cases keyKind a
    · exact (compareLex_eq_iff _).2 rfl
    · exact (compareLex_eq_iff _).2 rfl
    · exact Std.compare_self

theorem keyOrder_gt_iff {a b : String} : keyOrder a b = .gt ↔ keyOrder b a = .lt := by
  rw [← keyOrder_swap b a, Ordering.swap_eq_gt]

theorem keyOrder_ne_lt_of_lt {a b : String} (h : keyOrder a b = .lt) : keyOrder b a ≠ .lt := by
  rw [keyOrder_gt_iff.2 h]
  simp

/-! ### Digits of one length -/

theorem foldl_digits_lt {as bs : List Char} (length : as.length = bs.length)
    (ha : as.all Char.isDigit = true) {m n : Nat} (h : m < n) :
    as.foldl (fun n c => 10 * n + (c.toNat - '0'.toNat)) m
      < bs.foldl (fun n c => 10 * n + (c.toNat - '0'.toNat)) n := by
  induction as generalizing bs m n with
  | nil =>
    rw [List.length_nil, eq_comm, List.length_eq_zero_iff] at length
    rw [length]
    exact h
  | cons a as ih =>
    cases bs with
    | nil => simp at length
    | cons b bs =>
      rw [List.all_cons, Bool.and_eq_true] at ha
      have digit : a.toNat - '0'.toNat < 10 := by
        have := ha.1
        simp only [Char.isDigit, Bool.and_eq_true, decide_eq_true_eq,
          UInt32.le_iff_toNat_le] at this
        have upper : a.toNat ≤ 57 := this.2
        have zero : '0'.toNat = 48 := rfl
        omega
      rw [List.foldl_cons, List.foldl_cons]
      exact ih (Nat.succ.inj length) ha.2 (by omega)

/-- Digits of one length are in the order of their values. -/
theorem lt_of_ofDigits_lt {as bs : List Char} (length : as.length = bs.length)
    (ha : as.all Char.isDigit = true) (hb : bs.all Char.isDigit = true) {m : Nat}
    (h : as.foldl (fun n c => 10 * n + (c.toNat - '0'.toNat)) m
      < bs.foldl (fun n c => 10 * n + (c.toNat - '0'.toNat)) m) : as < bs := by
  induction as generalizing bs m with
  | nil =>
    rw [List.length_nil, eq_comm, List.length_eq_zero_iff] at length
    rw [length] at h
    exact absurd h (lt_irrefl _)
  | cons a as ih =>
    cases bs with
    | nil => simp at length
    | cons b bs =>
      rw [List.all_cons, Bool.and_eq_true] at ha hb
      have rest : as.length = bs.length := Nat.succ.inj length
      rw [List.cons_lt_cons_iff]
      rcases lt_trichotomy a b with lt | rfl | gt
      · exact .inl lt
      · exact .inr ⟨rfl, ih rest ha.2 hb.2 h⟩
      · -- a greater first digit makes a greater number
        have least : 48 ≤ b.toNat := by
          have := hb.1
          simp only [Char.isDigit, Bool.and_eq_true, decide_eq_true_eq,
            UInt32.le_iff_toNat_le] at this
          exact this.1
        have gt : b.toNat < a.toNat := gt
        have zero : '0'.toNat = 48 := rfl
        have := foldl_digits_lt rest.symm hb.2
          (show 10 * m + (b.toNat - '0'.toNat) < 10 * m + (a.toNat - '0'.toNat) by omega)
        exact absurd h (lt_asymm this)

theorem isDigits_of_keyKind {s : String} (h : keyKind s ≠ .word) :
    s.toList.all Char.isDigit = true := by
  rw [keyKind] at h
  split at h
  · next digits => exact ((Bool.and_eq_true _ _).mp digits).2
  · exact absurd rfl h

theorem digitsValue_lt_of_small {s : String} (h : keyKind s = .small) :
    digitsValue s < digitsLimit := by
  by_contra large
  simp only [keyKind, large, if_false] at h
  split at h <;> cases h

theorem le_digitsValue_of_large {s : String} (h : keyKind s = .large) :
    digitsLimit ≤ digitsValue s := by
  by_contra small
  simp only [keyKind, Nat.lt_of_not_le small, if_true] at h
  split at h <;> cases h

/-- A key within the limit comes before one beyond it if it is no longer. -/
theorem keyOrder_small_large {s b : String} (hs : keyKind s = .small) (hb : keyKind b = .large) :
    keyOrder s b = .lt ↔ s.length ≤ b.length := by
  have order : keyOrder s b = byLength s b := by rw [keyOrder_eq, hs, hb]; rfl
  rw [order, byLength, compareLex, Ordering.then_eq_lt, compareOn, Nat.compare_eq_lt,
    Nat.compare_eq_eq, compare_lt_iff_lt]
  constructor
  · rintro (lt | ⟨eq, -⟩)
    · exact lt.le
    · exact eq.le
  · intro le
    refine le.lt_or_eq.imp_right fun eq => ⟨eq, String.lt_iff_toList_lt.2 ?_⟩
    have value := (digitsValue_lt_of_small hs).trans_le (le_digitsValue_of_large hb)
    exact lt_of_ofDigits_lt (by rw [String.length_toList, String.length_toList, eq])
      (isDigits_of_keyKind (hs ▸ by decide)) (isDigits_of_keyKind (hb ▸ by decide)) value

theorem keyOrder_large_small {s b : String} (hs : keyKind s = .small) (hb : keyKind b = .large) :
    keyOrder b s = .lt ↔ b.length < s.length := by
  rw [← Nat.not_le, ← keyOrder_small_large hs hb, ← keyOrder_gt_iff]
  have ne : keyOrder s b ≠ .eq := by
    rw [Ne, keyOrder_eq_iff]
    rintro rfl
    rw [hs] at hb
    cases hb
  cases h : keyOrder s b <;> simp_all

/-! ### Three keys -/

/-- A key `s` of digits within the limit comes before another, `t`, by its value; a key beyond
the limit is as long as `t` at least, and `s` is longer than that. -/
structure Crossing (s t b : String) : Prop where
  small : keyKind s = .small
  small' : keyKind t = .small
  large : keyKind b = .large
  before : byValue s t = .lt
  short : t.length ≤ b.length
  long : b.length < s.length

instance (s t b : String) : Decidable (Crossing s t b) :=
  decidable_of_iff (keyKind s = .small ∧ keyKind t = .small ∧ keyKind b = .large
      ∧ byValue s t = .lt ∧ t.length ≤ b.length ∧ b.length < s.length)
    ⟨fun h => ⟨h.1, h.2.1, h.2.2.1, h.2.2.2.1, h.2.2.2.2.1, h.2.2.2.2.2⟩,
      fun h => ⟨h.small, h.small', h.large, h.before, h.short, h.long⟩⟩

theorem Crossing.circle {s t b : String} (h : Crossing s t b) :
    keyOrder s t = .lt ∧ keyOrder t b = .lt ∧ keyOrder b s = .lt := by
  refine ⟨?_, (keyOrder_small_large h.small' h.large).2 h.short,
    (keyOrder_large_small h.small h.large).2 h.long⟩
  rw [keyOrder_eq, h.small, h.small']
  exact h.before

theorem Crossing.of_circle {s t b : String} (hs : keyKind s = .small) (ht : keyKind t = .small)
    (hb : keyKind b = .large) (hst : keyOrder s t = .lt) (htb : keyOrder t b = .lt)
    (hbs : keyOrder b s = .lt) : Crossing s t b where
  small := hs
  small' := ht
  large := hb
  before := by rwa [keyOrder_eq, hs, ht] at hst
  short := (keyOrder_small_large ht hb).1 htb
  long := (keyOrder_large_small hs hb).1 hbs

/-- Three keys stand in a circle only where one is beyond the limit and two are within. -/
theorem crossing_of_circle {a b c : String} (hab : keyOrder a b = .lt) (hbc : keyOrder b c = .lt)
    (hca : keyOrder c a = .lt) : Crossing a b c ∨ Crossing b c a ∨ Crossing c a b := by
  have circle {cmp : String → String → Ordering} [Std.TransCmp cmp] (hab : cmp a b = .lt)
      (hbc : cmp b c = .lt) (hca : cmp c a = .lt) : False := by
    have self : cmp a a = .eq := Std.ReflCmp.compare_self
    cases self.symm.trans (Std.TransCmp.lt_trans (Std.TransCmp.lt_trans hab hbc) hca)
  cases ha : keyKind a <;> cases hb : keyKind b <;> cases hc : keyKind c
  case small.small.large => exact .inl (.of_circle ha hb hc hab hbc hca)
  case large.small.small => exact .inr (.inl (.of_circle hb hc ha hbc hca hab))
  case small.large.small => exact .inr (.inr (.of_circle hc ha hb hca hab hbc))
  all_goals
    rw [keyOrder_eq, ha, hb] at hab
    rw [keyOrder_eq, hb, hc] at hbc
    rw [keyOrder_eq, hc, ha] at hca
    simp only [orderOf, reduceCtorEq] at hab hbc hca
  all_goals exact (circle hab hbc hca).elim

/-- The order of three keys is transitive unless they cross. -/
theorem keyOrder_trans_iff {a b c : String} (hab : keyOrder a b = .lt)
    (hbc : keyOrder b c = .lt) :
    keyOrder a c = .lt ↔ ¬ (Crossing a b c ∨ Crossing b c a ∨ Crossing c a b) := by
  constructor
  · rintro hac (h | h | h)
    · exact keyOrder_ne_lt_of_lt hac h.circle.2.2
    · exact keyOrder_ne_lt_of_lt hac h.circle.2.1
    · exact keyOrder_ne_lt_of_lt hac h.circle.1
  · intro free
    cases hac : keyOrder a c with
    | lt => rfl
    | eq =>
      cases keyOrder_eq_iff.1 hac
      exact absurd hbc (keyOrder_ne_lt_of_lt hab)
    | gt => exact absurd (crossing_of_circle hab hbc (keyOrder_gt_iff.1 hac)) free

/-! ### Fields in order -/

/-- No three of the keys cross. -/
def Uncrossed (keys : List String) : Prop :=
  ∀ a ∈ keys, ∀ b ∈ keys, ∀ c ∈ keys, ¬ Crossing a b c

instance (keys : List String) : Decidable (Uncrossed keys) :=
  inferInstanceAs (Decidable (∀ a ∈ keys, ∀ b ∈ keys, ∀ c ∈ keys, ¬ Crossing a b c))

variable {α : Type}

/-- Each field comes after the next one. -/
def Descending (fs : List (String × α)) : Prop := fs.Pairwise fun f g => keyOrder g.1 f.1 = .lt

theorem Uncrossed.mono {keys some : List String} (h : Uncrossed keys) (sub : some ⊆ keys) :
    Uncrossed some :=
  fun a ha b hb c hc => h a (sub ha) b (sub hb) c (sub hc)

theorem Uncrossed.trans {keys : List String} (h : Uncrossed keys) {a b c : String} (ha : a ∈ keys)
    (hb : b ∈ keys) (hc : c ∈ keys) (hab : keyOrder a b = .lt) (hbc : keyOrder b c = .lt) :
    keyOrder a c = .lt := by
  refine (keyOrder_trans_iff hab hbc).2 ?_
  rintro (cross | cross | cross)
  · exact h a ha b hb c hc cross
  · exact h b hb c hc a ha cross
  · exact h c hc a ha b hb cross

theorem descending_placeField {f : String × α} {gs : List (String × α)}
    (new : f.1 ∉ gs.map (·.1)) (free : Uncrossed (f.1 :: gs.map (·.1))) (h : Descending gs) :
    Descending (placeField f gs) := by
  induction gs with
  | nil => exact List.pairwise_singleton _ _
  | cons g gs ih =>
    obtain ⟨below, rest⟩ := List.pairwise_cons.1 h
    rw [List.map_cons, List.mem_cons, not_or] at new
    rw [placeField]
    split
    · next lt =>
      have others : f.1 :: gs.map (·.1) ⊆ f.1 :: (g :: gs).map (·.1) :=
        List.cons_subset_cons _ (List.subset_cons_self _ _)
      refine List.pairwise_cons.2 ⟨fun x hx => ?_, ih new.2 (free.mono others) rest⟩
      rcases List.mem_cons.1 ((placeField_perm f gs).mem_iff.1 hx) with rfl | hx
      · exact lt
      · exact below x hx
    · next ge =>
      have gt : keyOrder g.1 f.1 = .lt := by
        rw [← keyOrder_gt_iff]
        cases order : keyOrder f.1 g.1 with
        | lt => exact absurd order ge
        | eq => exact absurd (keyOrder_eq_iff.1 order) new.1
        | gt => rfl
      refine List.pairwise_cons.2 ⟨fun x hx => ?_, h⟩
      rcases List.mem_cons.1 hx with rfl | hx
      · exact gt
      · have held : x.1 ∈ f.1 :: (g :: gs).map (·.1) := by
          rw [List.map_cons]
          exact List.mem_cons_of_mem _ (List.mem_cons_of_mem _ (List.mem_map_of_mem hx))
        exact free.trans held (List.mem_cons_of_mem _ List.mem_cons_self) List.mem_cons_self
          (below x hx) gt

theorem descending_foldl {fs done : List (String × α)} (nodup : ((fs ++ done).map (·.1)).Nodup)
    (free : Uncrossed ((fs ++ done).map (·.1))) (h : Descending done) :
    Descending (fs.foldl (fun done f => placeField f done) done) := by
  induction fs generalizing done with
  | nil => exact h
  | cons f fs ih =>
    have perm : ((fs ++ placeField f done).map (·.1)).Perm ((f :: fs ++ done).map (·.1)) :=
      (((placeField_perm f done).append_left fs).trans List.perm_middle).map _
    refine ih (perm.nodup_iff.2 nodup) (free.mono perm.subset) (descending_placeField ?_ ?_ h)
    · rw [List.cons_append, List.map_cons, List.nodup_cons, List.map_append] at nodup
      exact fun hf => nodup.1 (List.mem_append_right _ hf)
    · rw [List.cons_append, List.map_cons, List.map_append] at free
      exact free.mono (List.cons_subset_cons _ (List.subset_append_right _ _))

/-- Fields in order do not depend on the order they were in. -/
theorem sortFields_eq_of_perm {fs gs : List (String × α)} (perm : fs.Perm gs)
    (nodup : (fs.map (·.1)).Nodup) (free : Uncrossed (fs.map (·.1))) :
    sortFields fs = sortFields gs := by
  have keys := perm.map (·.1)
  have first : Descending (fs.foldl (fun done f => placeField f done) []) :=
    descending_foldl (by rwa [List.append_nil]) (by rwa [List.append_nil]) .nil
  have second : Descending (gs.foldl (fun done f => placeField f done) []) :=
    descending_foldl (by rwa [List.append_nil, ← keys.nodup_iff])
      (by rw [List.append_nil]; exact free.mono keys.symm.subset) .nil
  have both := ((sortFields_perm fs).trans perm).trans (sortFields_perm gs).symm
  rw [sortFields, sortFields] at both ⊢
  rw [List.Perm.eq_of_pairwise (fun f g _ _ fg gf => absurd gf (keyOrder_ne_lt_of_lt fg)) first
    second ((List.reverse_perm _).symm.trans (both.trans (List.reverse_perm _)))]

/-! ### The text of a tree -/

/-- Whether the keys of a node, if it is an object, come once and do not cross. -/
def isOrderlyNode : Value → Bool
  | object _ _ fs => decide ((Entries.keys fs).Nodup ∧ Uncrossed (Entries.keys fs))
  | _ => true

/-- The keys of every object in the tree come once and do not cross. -/
def Orderly (v : Value) : Prop := ∀ u : Value, u.Within v → u.isOrderlyNode = true

theorem Orderly.of_allNodes {v : Value} (h : v.allNodes isOrderlyNode = true) : v.Orderly :=
  fun _ hu => hu.check h

theorem Orderly.parts {v : Value} (h : v.Orderly) : ∀ u ∈ v.parts, u.Orderly :=
  fun _ hu x hx => h x (.trans hx (.part .self hu))

variable {v w : Value}

/-- Whether two trees alike are written as one text, wherever they stand. -/
structure SameText (o : RenderOptions) (v w : Value) : Prop where
  alike : v.Alike w
  text (depth : Nat) (atRoot : Bool) (key : Option String) :
    renderAt o depth atRoot key v = renderAt o depth atRoot key w

theorem origin_alike (h : v.Alike w) : v.origin = w.origin := by
  cases h with
  | null origin | bool origin | number origin | string origin | reference origin
  | object origin | list origin | concat origin | merge origin => exact origin

theorem itemHead_alike (o : RenderOptions) (depth : Nat) (h : v.Alike w) :
    itemHead o depth v = itemHead o depth w := by
  simp only [itemHead, commentsAbove, origin_alike h]

theorem layerHead_alike (o : RenderOptions) (depth : Nat) (key : Option String) (h : v.Alike w)
    (below : Nat) : layerHead o depth key v below = layerHead o depth key w below := by
  simp only [layerHead, origin_alike h]

theorem keyHead_alike (o : RenderOptions) (key : Option String) (h : v.Alike w) :
    keyHead o key v = keyHead o key w := by
  cases key with
  | none => rfl
  | some k =>
    simp only [keyHead, renderKey]
    rw [h.fields?_isSome_eq]

theorem SameText.forall₂ {o : RenderOptions} {xs ys : List Value} (length : xs.length = ys.length)
    (alike : ∀ (i : Nat) x y, xs[i]? = some x → ys[i]? = some y → x.Alike y)
    (text : ∀ (i : Nat) x y, xs[i]? = some x → ys[i]? = some y → ∀ depth atRoot key,
      renderAt o depth atRoot key x = renderAt o depth atRoot key y) :
    List.Forall₂ (SameText o) xs ys :=
  List.forall₂_iff_get.2 ⟨length, fun i h h' =>
    have hx : xs[i]? = some _ := List.getElem?_eq_getElem h
    have hy : ys[i]? = some _ := List.getElem?_eq_getElem h'
    ⟨alike i _ _ hx hy, text i _ _ hx hy⟩⟩

section Parts

variable {o : RenderOptions} {xs ys : List Value}

theorem isEmpty_congr (h : List.Forall₂ (SameText o) xs ys) : xs.isEmpty = ys.isEmpty := by
  cases h <;> rfl

theorem itemParts_congr (depth : Nat) (h : List.Forall₂ (SameText o) xs ys) :
    itemParts o depth xs = itemParts o depth ys := by
  induction h with
  | nil => rfl
  | cons h _ ih => rw [itemParts, itemParts, ih, itemHead_alike o depth h.alike, h.text]

theorem pieceParts_congr (depth : Nat) (h : List.Forall₂ (SameText o) xs ys) :
    pieceParts o depth xs = pieceParts o depth ys := by
  induction h with
  | nil => rfl
  | cons h _ ih => rw [pieceParts, pieceParts, ih, h.text]

theorem layerParts_congr (depth : Nat) (atRoot : Bool) (key : Option String)
    (h : List.Forall₂ (SameText o) xs ys) :
    layerParts o depth atRoot key xs = layerParts o depth atRoot key ys := by
  induction h with
  | nil => rfl
  | cons h rest ih =>
    rw [layerParts, layerParts, ih, layerHead_alike o depth key h.alike, h.text, rest.length_eq]

/-- The fields of objects alike are written as the same parts, in another order. -/
theorem fieldParts_perm {fs gs : Entries Value} (depth : Nat)
    (nodup : (Entries.keys fs).Nodup) (keys : (Entries.keys fs).Perm (Entries.keys gs))
    (h : ∀ k v w, Entries.get? fs k = some v → Entries.get? gs k = some w → SameText o v w) :
    (fieldParts o depth fs).Perm (fieldParts o depth gs) := by
  -- what stands beside a key, by the key alone
  let part (hs : Entries Value) (k : String) : String × Writing :=
    (k, ((Entries.get? hs k).map fun v =>
      itemHead o depth v ++ renderAt o depth false (some k) v).getD {})
  have byKey {hs : Entries Value} (nodup : (Entries.keys hs).Nodup) :
      fieldParts o depth hs = (Entries.keys hs).map (part hs) := by
    rw [fieldParts_eq_map, Entries.keys, List.map_map]
    refine List.map_congr_left fun f hf => ?_
    have hf : Entries.get? hs f.1 = some f.2 := Entries.get?_of_mem nodup hf
    simp only [Function.comp_apply, part, hf, Option.map_some, Option.getD_some]
  rw [byKey nodup, byKey (keys.nodup_iff.1 nodup)]
  have parts : (Entries.keys fs).map (part fs) = (Entries.keys fs).map (part gs) := by
    refine List.map_congr_left fun k hk => ?_
    obtain ⟨v, hv⟩ := Entries.exists_get?_of_mem_keys hk
    obtain ⟨w, hw⟩ := Entries.exists_get?_of_mem_keys (keys.mem_iff.1 hk)
    have same := h k v w hv hw
    simp only [part, hv, hw, Option.map_some, Option.getD_some,
      itemHead_alike o depth same.alike, same.text]
  rw [parts]
  exact keys.map _

end Parts

theorem keys_fieldParts (o : RenderOptions) (depth : Nat) (fs : Entries Value) :
    (fieldParts o depth fs).map (·.1) = Entries.keys fs := by
  rw [fieldParts_eq_map, List.map_map]
  rfl

/-- Where keys come once and do not cross, the order of fields does not show. -/
theorem renderAt_alike (o : RenderOptions) (h : v.Alike w) (orderly : v.Orderly) (depth : Nat)
    (atRoot : Bool) (key : Option String) :
    renderAt o depth atRoot key v = renderAt o depth atRoot key w := by
  induction h generalizing depth atRoot key with
  | null | bool | number | string | reference =>
    simp only [renderAt]
    rfl
  | @object p q origin c fs gs keys fields ih =>
    have here : (Entries.keys fs).Nodup ∧ Uncrossed (Entries.keys fs) :=
      of_decide_eq_true (orderly _ .self)
    have parts (depth : Nat) :
        sortFields (fieldParts o depth fs) = sortFields (fieldParts o depth gs) := by
      refine sortFields_eq_of_perm (fieldParts_perm depth here.1 keys fun k x y hx hy => ?_) ?_ ?_
      · exact ⟨fields k x y hx hy,
          ih k x y hx hy (orderly.parts x (mem_parts_of_mem_fields (Entries.mem_of_get? hx)))⟩
      · rw [keys_fieldParts]
        exact here.1
      · rw [keys_fieldParts]
        exact here.2
    have empty : fs.isEmpty = gs.isEmpty := by
      have := keys.length_eq
      simp only [Entries.keys, List.length_map] at this
      rw [Bool.eq_iff_iff, List.isEmpty_iff_length_eq_zero, List.isEmpty_iff_length_eq_zero, this]
    simp only [renderAt, parts, empty, keyHead_alike o key (.object origin c keys fields)]
  | list origin length items ih =>
    have same := SameText.forall₂ length items fun i x y hx hy =>
      ih i x y hx hy (orderly.parts x (List.mem_of_getElem? hx))
    have empty := isEmpty_congr same
    simp only [renderAt, itemParts_congr _ same, empty,
      keyHead_alike o key (.list origin length items)]
  | concat origin length pieces ih =>
    have same := SameText.forall₂ length pieces fun i x y hx hy =>
      ih i x y hx hy (orderly.parts x (List.mem_of_getElem? hx))
    simp only [renderAt, pieceParts_congr _ same,
      keyHead_alike o key (.concat origin length pieces)]
  | merge origin k length layers ih =>
    have same := SameText.forall₂ length layers fun i x y hx hy =>
      ih i x y hx hy (orderly.parts x (List.mem_of_getElem? hx))
    have empty := isEmpty_congr same
    simp only [renderAt, layerParts_congr _ _ _ same, empty, length]

/-- Any two keys compare in both directions alike, and as equal only if they are.  Three keys
are in a transitive order unless they cross.  So trees that differ in the order of their fields
are written as one text, with any options, if no keys of one object cross. -/
theorem render_alike (a b c : String) (v w : Value) (o : RenderOptions) :
    (keyOrder a b).swap = keyOrder b a
      ∧ (keyOrder a b = .eq ↔ a = b)
      ∧ (keyOrder a b = .lt → keyOrder b c = .lt →
        (keyOrder a c = .lt ↔ ¬ (Crossing a b c ∨ Crossing b c a ∨ Crossing c a b)))
      ∧ (v.Alike w → v.Orderly → v.render o = w.render o) := by
  refine ⟨keyOrder_swap a b, keyOrder_eq_iff, keyOrder_trans_iff, fun h orderly => ?_⟩
  simp only [render, renderAt_alike o h orderly, h.fields?_isSome_eq]

theorem Alike.of_fields {p : Provenance} {c : Bool} {fs gs : Entries Value}
    (h : List.Forall₂ (fun f g => f.1 = g.1 ∧ f.2.Alike g.2) fs gs) :
    Alike (Value.object p c fs) (Value.object p c gs) := by
  have keys : Entries.keys fs = Entries.keys gs := by
    induction h with
    | nil => rfl
    | cons h _ ih => exact congrArg₂ List.cons h.1 ih
  refine .object rfl c (keys ▸ .refl _) ?_
  clear keys
  induction h with
  | nil => rintro k v w ⟨⟩
  | @cons f g fs gs h _ ih =>
    intro k v w hv hw
    rw [Entries.get?] at hv hw
    rw [h.1] at hv
    split at hv
    · next e =>
      rw [if_pos e] at hw
      cases hv
      cases hw
      exact h.2
    · next e =>
      rw [if_neg e] at hw
      exact ih k v w hv hw

/-- Keys of all kinds at two depths, also one beyond the limit and a padded one. -/
theorem render_alike_example :
    let p : Provenance := { origin := .named "test" }
    let x := bool p true
    let huge := "9999999999999999999999999999999999999999"
    let v := object p false
      [("b", x), (huge, x), ("10", object p false [("2", x), ("a", x)]), ("007", x)]
    let w := object p false
      [("10", object p false [("a", x), ("2", x)]), ("007", x), (huge, x), ("b", x)]
    keyOrder "007" "10" = .lt ∧ keyOrder "10" huge = .lt ∧ keyOrder "007" huge = .lt
      ∧ ¬ (Crossing "007" "10" huge ∨ Crossing "10" huge "007" ∨ Crossing huge "007" "10")
      ∧ v.Alike w ∧ v.Orderly ∧ v.render .concise = w.render .concise := by
  intro p x huge v w
  have lower : keyOrder "007" "10" = .lt := by decide +kernel
  have upper : keyOrder "10" huge = .lt := by decide +kernel
  have outer : keyOrder "007" huge = .lt := by decide +kernel
  have inner : (object p false [("2", x), ("a", x)]).Alike (object p false [("a", x), ("2", x)]) :=
    .of_perm p false (by decide) (.swap _ _ _)
  have mixed : List.Perm
      [("b", x), (huge, x), ("10", object p false [("2", x), ("a", x)]), ("007", x)]
      [("10", object p false [("2", x), ("a", x)]), ("007", x), (huge, x), ("b", x)] :=
    (List.reverse_perm _).symm.trans (.swap _ _ _)
  have fields : v.Alike w := .trans (.of_perm p false (by decide +kernel) mixed)
    (.of_fields (.cons ⟨rfl, inner⟩
      (.cons ⟨rfl, .refl _⟩ (.cons ⟨rfl, .refl _⟩ (.cons ⟨rfl, .refl _⟩ .nil)))))
  have orderly : v.Orderly := .of_allNodes (by decide +kernel)
  obtain ⟨-, -, transitive, alike⟩ := render_alike "007" "10" huge v w .concise
  exact ⟨lower, upper, outer, (transitive lower upper).1 outer, fields, orderly,
    alike fields orderly⟩

/-- A padded key, a short one, and one beyond the limit.  The three stand in a circle, and two
orders of one object's fields show in its text. -/
theorem render_alike_counterexample :
    let p : Provenance := { origin := .named "test" }
    let padded := "000000000000000000000000000000000000000000000000001"
    let huge := "9999999999999999999999999999999999999999"
    let v := object p false [(padded, bool p true), ("2", bool p true), (huge, bool p true)]
    let w := object p false [("2", bool p true), (huge, bool p true), (padded, bool p true)]
    keyOrder padded "2" = .lt ∧ keyOrder "2" huge = .lt ∧ keyOrder padded huge ≠ .lt
      ∧ v.isResolved = true ∧ v.Alike w ∧ v.render .concise ≠ w.render .concise := by
  intro p padded huge v w
  refine ⟨by decide +kernel, by decide +kernel, by decide +kernel, by decide,
    .of_perm p false (by decide +kernel) ?_, by decide +kernel⟩
  exact ((List.Perm.swap _ _ _).trans (.cons _ (.swap _ _ _)))

end Value

end Hocon
