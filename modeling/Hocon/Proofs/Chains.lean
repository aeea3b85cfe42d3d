import Hocon.Proofs.Stacks

/-!
# A key among fields that need nothing
-/

namespace Hocon

namespace Value

/-- The keys lead through objects to `K`, and nothing else waits in these objects. -/
inductive Leads (K : Value) : List String → Value → Prop
  | here : Leads K [] K
  | inside {p : Provenance} {closed : Bool} {fs : Entries Value} {key : String} {keys : List String}
      {w : Value} (nodup : (Entries.keys fs).Nodup) (get : Entries.get? fs key = some w)
      (others : ∀ f ∈ fs, f.1 ≠ key → f.2.isResolved = true) (rest : Leads K keys w) :
      Leads K (key :: keys) (object p closed fs)

variable {K v w : Value}

theorem Leads.peek? {keys : List String} (h : Leads K keys v) : v.peek? keys = some K := by
  induction h with
  | here => rfl
  | inside _ get _ _ ih => simp only [Value.peek?, fields?, Option.bind_eq_bind, Option.bind_some, get, ih]

/-- Trees that are alike have at a path what is alike. -/
theorem Alike.peek? (h : v.Alike w) (keys : List String) :
    Option.Rel Alike (v.peek? keys) (w.peek? keys) := by
  induction keys generalizing v w with
  | nil => exact .some h
  | cons key keys ih =>
    cases h with
    | @object p q _ c fs gs perm fields =>
      simp only [Value.peek?, fields?, Option.bind_eq_bind, Option.bind_some]
      cases hf : Entries.get? fs key with
      | none =>
        rw [Entries.get?_eq_none_iff.2 (mt perm.mem_iff.2 (Entries.get?_eq_none_iff.1 hf))]
        exact .none
      | some x =>
        cases hg : Entries.get? gs key with
        | none =>
          exact absurd (perm.mem_iff.1 (Entries.mem_keys_of_get? hf))
            (Entries.get?_eq_none_iff.1 hg)
        | some y => exact ih (fields key x y hf hg)
    | _ => exact .none

theorem Leads.isResolved_eq_false {keys : List String} (h : Leads K keys v)
    (waits : K.isResolved = false) : v.isResolved = false := by
  induction h with
  | here => exact waits
  | @inside p closed fs key keys w _ get _ _ ih =>
    refine Bool.eq_false_iff.2 fun resolved => ?_
    have := fieldsResolved_iff.1 (show fieldsResolved fs = true from resolved) _ (Entries.mem_of_get? get)
    exact absurd this (Bool.eq_false_iff.1 ih)

theorem mem_markItems_iff {vs : List Value} {next : Nat} {P : Value → Prop}
    (h : ∀ v ∈ vs, ∀ n, P (v.markFrom n).1 ↔ P v) :
    (∀ u ∈ (markItems next vs).1, P u) ↔ ∀ v ∈ vs, P v := by
  induction vs generalizing next with
  | nil => exact ⟨nofun, nofun⟩
  | cons v vs ih =>
    obtain ⟨hv, hvs⟩ := List.forall_mem_cons.1 h
    rw [markItems, List.forall_mem_cons, List.forall_mem_cons, hv, ih hvs]

/-- Marks do not resolve anything. -/
theorem isResolved_markFrom_iff {next : Nat} :
    (v.markFrom next).1.isResolved = true ↔ v.isResolved = true := by
  induction v using parts_induction generalizing next with
  | node v ih =>
    cases hm : v.mark with
    | some n => rw [markFrom_of_mark hm]
    | none =>
      obtain ⟨-, parts, -⟩ := markFrom_of_no_mark hm next
      rw [isResolved_iff, isResolved_iff, parts, mem_markItems_iff fun u hu n => ih u hu,
        (alike_markFrom v next).isPending_eq]

theorem Leads.peekThrough {first : String} {rest : List String} (h : Leads K (first :: rest) v) :
    v.peekThrough first rest = .ok (some K) := by
  induction rest generalizing first v with
  | nil =>
    cases h with
    | inside _ get _ leads =>
      cases leads
      simp only [Value.peekThrough, peekFirst, get]
  | cons next rest ih =>
    cases h with
    | @inside _ _ _ _ _ w _ get _ leads =>
      have object : w.isObjectValued = true := by
        cases leads
        rfl
      simp only [Value.peekThrough, peekFirst, get]
      show (if w.isObjectValued then w.peekThrough next rest else _) = _
      rw [if_pos object]
      exact ih leads

end Value

namespace Resolution

open Value

variable {g : Table} {start : Nat} {s : Setting} {k : Path} {K : Value} {c : Surroundings}
  {m m' : Memory} {v w : Value}

/-! ### Looking for the key -/

/-- The result is the value itself, and no result of a node that waits is touched. -/
def Returns (g : Table) (start : Nat) (m : Memory) (v : Value)
    (out : Except Failure (Option Value)) (m' : Memory) : Prop :=
  out = .ok (some v) ∧ m'.Sane g start ∧ m.Spares g (fun _ => False) m'

/-- The first field, and then the others. -/
theorem ensures_fields_cons {along : Option Path} {key : String} {fs : Entries Value}
    {P : Except Failure (Option Value) → Memory → Prop}
    {Q : Except Failure (Entries (Option Value)) → Memory → Prop}
    (reached : ∀ a, alongField along key = some a → Ensures (resolve s c v a) m P)
    (passed : alongField along key = none → P (.ok (some v)) m)
    (tail : ∀ r m', P (.ok r) m' →
      Ensures (do return (key, r) :: (← resolveFields s c along fs)) m' Q)
    (error : ∀ e m', P (.error e) m' → Q (.error e) m') :
    Ensures (resolveFields s c along ((key, v) :: fs)) m Q := by
  rw [resolveFields]
  split
  · next a ha => exact (reached a ha).bind tail error
  · next ha => exact tail (some v) m (passed ha)

/-- Fields that all come back as they are. -/
theorem ensures_fields_same {along : Option Path} {fs : Entries Value}
    (h : ∀ f ∈ fs, ∀ a, alongField along f.1 = some a → ∀ m, m.Sane g start →
      Ensures (resolve s c f.2 a) m (Returns g start m f.2)) (sane : m.Sane g start) :
    Ensures (resolveFields s c along fs) m fun out m' =>
      out = .ok (fs.map fun f => (f.1, some f.2)) ∧ m'.Sane g start
        ∧ m.Spares g (fun _ => False) m' := by
  induction fs generalizing m with
  | nil =>
    rw [resolveFields]
    exact Ensures.pure ⟨rfl, sane, .refl m⟩
  | cons f fs ih =>
    obtain ⟨key, v⟩ := f
    obtain ⟨hf, hfs⟩ := List.forall_mem_cons.1 h
    refine ensures_fields_cons (P := Returns g start m v) (fun a ha => hf a ha m sane)
      (fun _ => ⟨rfl, sane, .refl m⟩) (fun r m' hr => ?_) fun e m' he => by cases he.1
    obtain ⟨hr, sane, spares⟩ := hr
    cases hr
    refine (ih hfs sane).bind (fun rs m'' hrs => ?_) fun e m'' he => by cases he.1
    obtain ⟨hrs, sane, spares'⟩ := hrs
    cases hrs
    exact Ensures.pure ⟨rfl, sane, spares.trans spares'⟩

/-- An object whose fields all come back as they are comes back as it is. -/
theorem ensures_object_same {p : Provenance} {closed : Bool} {fs : Entries Value} {path : Path}
    (known : (object p closed fs).Known g) (table : ∀ n v, g n = some v → n < start)
    (h : ∀ f ∈ fs, ∀ a, alongField (some path) f.1 = some a → ∀ m, m.Sane g start →
      Ensures (resolve s c f.2 a) m (Returns g start m f.2)) (sane : m.Sane g start) :
    Ensures (resolve s c (object p closed fs) (some path)) m
      (Returns g start m (object p closed fs)) := by
  obtain ⟨n, mark, entry⟩ := known.exists_mark
  cases hr : m.recall? (object p closed fs) (some path) with
  | some w =>
    cases sane.recall mark entry rfl hr
    exact ensures_resolve_recalled hr ⟨rfl, sane, .refl m⟩
  | none =>
    have kept {m' : Memory} (sane : m'.Sane g start) (spares : m.Spares g (fun _ => False) m') :
        Keeps s (object p closed fs) (some path) (Returns g start m (object p closed fs))
          (.ok (some (object p closed fs))) m' := by
      have remembered (along : Option Path) : Returns g start m (object p closed fs)
          (.ok (some (object p closed fs))) (m'.remember (object p closed fs) along
            (object p closed fs)) := by
        refine ⟨rfl, sane.remember mark (Nat.lt_of_lt_of_le (table n _ entry) sane.start)
          (fun u hu _ => Option.some.inj (entry.symm.trans hu)) along, ?_⟩
        exact spares.remember mark fun _ waits => by cases waits _ entry
      by_cases resolved : (object p closed fs).isResolved = true
      · exact .resolved resolved (remembered none)
      · exact .partly resolved (remembered (some path))
    refine ensures_resolve hr rfl ?_
    rw [resolveNode]
    split
    · exact Ensures.pure (kept sane (.refl m))
    · refine (ensures_fields_same h sane).bind (fun rs m' hrs => ?_) fun e m' he => by cases he.1
      obtain ⟨hrs, sane, spares⟩ := hrs
      cases hrs
      rw [rebuildObject, if_pos]
      · exact Ensures.pure (kept sane spares)
      · simp [List.map_map, Function.comp_def]

/-- The objects that lead to the key come back as they are. -/
theorem ensures_along (table : ∀ n v, g n = some v → n < start) {path : Path} {keys : List String}
    (leads : Leads K keys v) (along : keys = path.keys) (known : v.Known g)
    (sane : m.Sane g start) : Ensures (resolve s c v (some path)) m (Returns g start m v) := by
  induction leads generalizing path m with
  | here => cases along
  | @inside p closed fs key keys w nodup get others rest ih =>
    obtain ⟨rfl, hkeys⟩ := List.cons.inj along
    refine ensures_object_same known table (fun f hf a ha m sane => ?_) sane
    simp only [alongField] at ha
    split at ha
    · next same =>
      -- this is the field that leads on
      obtain ⟨path', hpath, rfl⟩ := Option.map_eq_some_iff.1 ha
      have eq : f.2 = w := by
        have := Entries.get?_of_mem nodup (show (f.1, f.2) ∈ fs from hf)
        rw [same, get] at this
        exact (Option.some.inj this).symm
      rw [eq]
      refine ih ?_ (known.parts w (mem_parts_of_mem_fields (Entries.mem_of_get? get))) sane
      rw [hkeys]
      unfold Path.remainder? at hpath
      revert hpath
      cases path.rest with
      | nil => rintro ⟨⟩
      | cons a as => rintro ⟨⟩; rfl
    · cases ha

/-- The key is looked up without touching anything that waits. -/
theorem ensures_found (table : ∀ n v, g n = some v → n < start) {root : Value}
    (leads : Leads K k.keys root) (known : root.Known g) (sane : m.Sane g start) :
    Ensures (findIn (resolve s c) root k) m (Returns g start m K) := by
  unfold findIn
  have object : root.isObjectValued = true := by
    cases leads
    rfl
  refine (ensures_along table leads rfl known sane).bind (fun r m' hr => ?_) fun e m' he => by
    cases he.1
  obtain ⟨hr, sane, spares⟩ := hr
  cases hr
  simp only [object, if_true, leads.peekThrough]
  exact Ensures.pure ⟨rfl, sane, spares⟩

/-! ### Resolving what leads to the key -/

/-- The nodes that need nothing. -/
def settledOf (g : Table) : Table := fun n => (g n).filter isResolved

theorem settledOf_eq_some {n : Nat} (h : settledOf g n = some v) : g n = some v ∧ v.isResolved = true := by
  obtain ⟨hv, resolved⟩ := Option.filter_eq_some_iff.1 h
  exact ⟨hv, resolved⟩

theorem Memory.Sane.settled (h : m.Sane g start) : m.Sane (settledOf g) start where
  start := h.start
  below := h.below
  own memo hm v hv waits := h.own memo hm v (settledOf_eq_some hv).1 waits

theorem Known.settled (h : v.Known g) (resolved : v.isResolved = true) : v.Known (settledOf g) := by
  induction h with
  | @node v n mark entry parts ih =>
    refine .node mark ?_ fun u hu => ih u hu (isResolved_of_within (.part .self hu) resolved)
    rw [settledOf, entry]
    exact Option.filter_some_pos resolved

/-- The run breaks, or it gives a value that still waits: neither happens in the end. -/
def Escapes (g : Table) (start : Nat) (out : Except Failure (Option Value)) (m : Memory) : Prop :=
  (∃ breach, out = .error (.error (.broken breach)))
    ∨ ∃ w, out = .ok (some w) ∧ w.isResolved = false ∧ m.Sane (settledOf g) start

/-- What resolving a value comes to if something is expected at the keys. -/
def Amounts (g : Table) (start : Nat) (keys : List String) (o : Option (Option Value))
    (out : Except Failure (Option Value)) (m : Memory) : Prop :=
  Escapes g start out m
    ∨ Expects o (fun b r m => SameHeld b (r.bind (·.peek? keys))
      ∧ (∀ w, r = some w → w.isResolved = true) ∧ m.Sane (settledOf g) start) out m

theorem Amounts.sane {keys : List String} {o : Option (Option Value)} {r : Option Value}
    (h : Amounts g start keys o (.ok r) m) : m.Sane (settledOf g) start := by
  rcases h with (⟨_, h⟩ | ⟨_, -, -, sane⟩) | h
  · cases h
  · exact sane
  · cases o with
    | none =>
      obtain ⟨_, h⟩ := h
      cases h
    | some b =>
      obtain ⟨_, -, -, -, sane⟩ := h
      exact sane

theorem Amounts.still {keys : List String} {o : Option (Option Value)} {r : Option Value}
    (h : Amounts g start keys o (.ok r) m) (sane : m'.Sane (settledOf g) start) :
    Amounts g start keys o (.ok r) m' := by
  rcases h with (⟨_, h⟩ | ⟨w, h, waits, -⟩) | h
  · cases h
  · exact .inl (.inr ⟨w, h, waits, sane⟩)
  · cases o with
    | none =>
      obtain ⟨_, h⟩ := h
      cases h
    | some b =>
      obtain ⟨r', h, same, resolved, -⟩ := h
      exact .inr ⟨r', h, same, resolved, sane⟩

/-- A field that waits among fields that need nothing. -/
theorem ensures_fields_among {pre post : Entries Value} {key : String} {m₀ : Memory}
    {Q : Except Failure (Option Value) → Memory → Prop}
    (known : ∀ f ∈ pre ++ (key, v) :: post, f.2.Known g) (table : ∀ n v, g n = some v → n < start)
    (others : ∀ f ∈ pre ++ post, f.2.isResolved = true)
    (run : ∀ m, m.Sane g start → m₀.Spares g (fun _ => False) m →
      Ensures (resolve s c v none) m Q)
    (sane' : ∀ r m, Q (.ok r) m → m.Sane (settledOf g) start)
    (still : ∀ r m m', Q (.ok r) m → m'.Sane (settledOf g) start → Q (.ok r) m')
    (sane : m.Sane g start) (spares : m₀.Spares g (fun _ => False) m) :
    Ensures (resolveFields s c none (pre ++ (key, v) :: post)) m fun out m' =>
      match out with
      | .ok rs => ∃ r, rs = pre.map (fun f => (f.1, some f.2)) ++ (key, r)
          :: post.map (fun f => (f.1, some f.2)) ∧ Q (.ok r) m'
      | .error e => Q (.error e) m' := by
  have itself {g : Table} {f : String × Value} (known : f.2.Known g)
      (table : ∀ n v, g n = some v → n < start) (resolved : f.2.isResolved = true)
      {m : Memory} (sane : m.Sane g start) : Ensures (resolve s c f.2 none) m (Returns g start m f.2) :=
    (ensures_resolved known table resolved sane).mono fun _ _ h => ⟨h.1, h.2.1, h.2.2.1⟩
  induction pre generalizing m with
  | nil =>
    refine ensures_fields_cons (P := Q) (fun a ha => ?_) nofun (fun r m' hr => ?_) fun e m' he => he
    · cases ha
      exact run m sane spares
    · refine (ensures_fields_same (fun f hf a ha m sane => ?_) (sane' r m' hr)).bind
        (fun rs m'' hrs => ?_) fun e m'' he => by cases he.1
      · cases ha
        have resolved := others f hf
        exact itself (Known.settled (known f (List.mem_cons_of_mem _ hf)) resolved)
          (fun n v hv => table n v (settledOf_eq_some hv).1) resolved sane
      · obtain ⟨hrs, sane, -⟩ := hrs
        cases hrs
        exact Ensures.pure ⟨r, rfl, still r m' m'' hr sane⟩
  | cons f pre ih =>
    obtain ⟨key', u⟩ := f
    obtain ⟨hu, others⟩ := List.forall_mem_cons.1 others
    refine ensures_fields_cons (P := Returns g start m u) (fun a ha => ?_) nofun (fun r m' hr => ?_)
      fun e m' he => by cases he.1
    · cases ha
      exact itself (known _ List.mem_cons_self) table hu sane
    · obtain ⟨hr, sane, spares'⟩ := hr
      cases hr
      refine (ih (fun f hf => known f (List.mem_cons_of_mem _ hf)) others sane
        (spares.trans spares')).bind (fun rs m'' hrs => ?_) fun e m'' he => he
      obtain ⟨r, rfl, hr⟩ := hrs
      exact Ensures.pure ⟨r, rfl, hr⟩

theorem SameHeld.alike {b x y : Option Value} (same : SameHeld b x) (like : Option.Rel Alike x y) :
    SameHeld b y := by
  cases same with
  | none =>
    cases like
    exact .none
  | some same =>
    cases like with
    | some like => exact .some (same.trans (.of_alike same.right like))

theorem not_mem_keys_of_nodup {pre post : Entries Value} {key : String}
    (nodup : (Entries.keys (pre ++ (key, v) :: post)).Nodup) :
    key ∉ Entries.keys pre ∧ key ∉ Entries.keys post := by
  have split : (Entries.keys pre ++ key :: Entries.keys post).Nodup := by
    simpa [Entries.keys] using nodup
  exact ⟨fun h => (List.nodup_append.1 split).2.2 key h key List.mem_cons_self rfl,
    (List.nodup_cons.1 (List.nodup_append.1 split).2.1).1⟩

/-- What a field among others has become. -/
theorem get?_among {pre post : Entries Value} {key : String} (hpre : key ∉ Entries.keys pre)
    (hpost : key ∉ Entries.keys post) (r : Option Value) :
    Entries.get? ((pre.map (fun f => (f.1, some f.2)) ++ (key, r)
      :: post.map (fun f => (f.1, some f.2))).filterMap fun f => f.2.map fun w => (f.1, w)) key
      = r := by
  induction pre with
  | nil =>
    have rest : (post.map fun f => (f.1, some f.2)).filterMap
        (fun f => f.2.map fun w => (f.1, w)) = post := by
      simp [List.filterMap_map]
    rw [List.map_nil, List.nil_append, List.filterMap_cons]
    cases r with
    | none => exact (congrArg (Entries.get? · key) rest).trans (Entries.get?_eq_none_iff.2 hpost)
    | some w => exact if_pos rfl
  | cons f pre ih =>
    obtain ⟨ne, hpre⟩ := not_or.1 (mt List.mem_cons.2 hpre)
    rw [List.map_cons, List.cons_append, List.filterMap_cons]
    exact (if_neg (Ne.symm ne)).trans (ih hpre)

/-- An object among whose fields one has been resolved. -/
theorem ensures_rebuilt {p : Provenance} {closed : Bool} {pre post : Entries Value} {key : String}
    {keys : List String} {o : Option (Option Value)} {r : Option Value} {n : Nat}
    (strict : s.allowUnresolved = false) (mark : p.mark = some n)
    (entry : g n = some (object p closed (pre ++ (key, v) :: post)))
    (nodup : (Entries.keys (pre ++ (key, v) :: post)).Nodup)
    (waits : (object p closed (pre ++ (key, v) :: post)).isResolved = false)
    (amounts : Amounts g start keys o (.ok r) m) (lt : n < m.next) :
    Ensures (rebuildObject (object p closed (pre ++ (key, v) :: post)) (pre ++ (key, v) :: post)
      (pre.map (fun f => (f.1, some f.2)) ++ (key, r) :: post.map (fun f => (f.1, some f.2)))) m
      fun out m' => match out with
        | .ok u => Keeps s (object p closed (pre ++ (key, v) :: post)) none
          (Amounts g start (key :: keys) o) (.ok (some u)) m'
        | .error _ => False := by
  obtain ⟨hpre, hpost⟩ := not_mem_keys_of_nodup nodup
  -- what still waits is not kept
  have unkept {w : Value} (waits : w.isResolved = false) (m' : Memory) :
      Keeps s (object p closed (pre ++ (key, v) :: post)) none (Amounts g start (key :: keys) o)
        (.ok (some w)) m' := .refused strict waits (.inl (.inl ⟨_, rfl⟩))
  unfold rebuildObject
  split
  · exact Ensures.pure (unkept waits m)
  · generalize hu : object { origin := (object p closed (pre ++ (key, v) :: post)).origin }
      (object p closed (pre ++ (key, v) :: post)).ignoresFallbacks _ = u
    have like := alike_markFrom u m.next
    refine Ensures.modifyGet ?_
    show Keeps _ _ _ _ (.ok (some (u.markFrom m.next).1)) { m with next := (u.markFrom m.next).2 }
    cases resolved : (u.markFrom m.next).1.isResolved with
    | false => exact unkept resolved _
    | true =>
      refine .resolved resolved ?_
      have unsettled (x : Value) (hx : settledOf g n = some x) : False := by
        obtain ⟨hx, settled⟩ := settledOf_eq_some hx
        cases entry.symm.trans hx
        cases waits.symm.trans settled
      have sane := (amounts.sane.renew (le_markFrom u m.next)).remember
        (w := (u.markFrom m.next).1) (v := object p closed (pre ++ (key, v) :: post)) mark
        (Nat.lt_of_lt_of_le lt (le_markFrom u m.next)) (fun x hx _ => (unsettled x hx).elim) none
      rcases amounts with (⟨_, h⟩ | ⟨w, h, waits', -⟩) | expected
      · cases h
      · -- a field that waits would be left
        cases h
        have mem : (key, w) ∈ ((pre.map (fun f => (f.1, some f.2)) ++ (key, some w)
            :: post.map (fun f => (f.1, some f.2))).filterMap fun f => f.2.map fun w => (f.1, w)) :=
          Entries.mem_of_get? (get?_among hpre hpost (some w))
        have whole := isResolved_markFrom_iff.1 resolved
        rw [← hu] at whole
        cases waits'.symm.trans (fieldsResolved_iff.1 whole _ mem)
      · cases o with
        | none =>
          obtain ⟨_, h⟩ := expected
          cases h
        | some b =>
          obtain ⟨r', h, same, -⟩ := expected
          cases h
          refine .inr ⟨_, rfl, SameHeld.alike same ?_, fun w hw => Option.some.inj hw ▸ resolved, sane⟩
          have peeked : r.bind (·.peek? keys) = u.peek? (key :: keys) := by
            rw [← hu]
            simp only [Value.peek?, fields?, Option.bind_eq_bind, Option.bind_some]
            rw [get?_among hpre hpost]
          exact peeked ▸ like.peek? (key :: keys)

/-- Resolving what leads to `K` comes to what resolving `K` does. -/
theorem ensures_leads {keys : List String} {o : Option (Option Value)} {m₀ : Memory}
    (strict : s.allowUnresolved = false) (table : ∀ n v, g n = some v → n < start)
    (leads : Leads K keys v) (waits : K.isResolved = false) (known : v.Known g)
    (run : ∀ m, m.Sane g start → m₀.Spares g (fun _ => False) m →
      Ensures (resolve s c K none) m (Amounts g start [] o))
    (sane : m.Sane g start) (spares : m₀.Spares g (fun _ => False) m) :
    Ensures (resolve s c v none) m (Amounts g start keys o) := by
  induction leads generalizing m with
  | here => exact run m sane spares
  | @inside p closed fs key keys w nodup get others rest ih =>
    have pending : (object p closed fs).isResolved = false :=
      (Leads.inside nodup get others rest).isResolved_eq_false waits
    obtain ⟨n, mark, entry⟩ := known.exists_mark
    cases hr : m.recall? (object p closed fs) none with
    | some u =>
      cases sane.recall mark entry rfl hr
      exact ensures_resolve_recalled hr (.inl (.inr ⟨_, rfl, pending, sane.settled⟩))
    | none =>
      refine ensures_resolve hr rfl ?_
      rw [resolveNode, if_neg (Bool.eq_false_iff.1 (show fieldsResolved fs = false from pending))]
      obtain ⟨pre, post, rfl⟩ := List.append_of_mem (Entries.mem_of_get? get)
      obtain ⟨hpre, hpost⟩ := not_mem_keys_of_nodup nodup
      have resolved (f : String × Value) (hf : f ∈ pre ++ post) : f.2.isResolved = true := by
        have mem : f.1 ∈ Entries.keys pre ∨ f.1 ∈ Entries.keys post :=
          (List.mem_append.1 hf).imp (List.mem_map_of_mem) (List.mem_map_of_mem)
        refine others f ?_ fun same => mem.elim (same ▸ hpre) (same ▸ hpost)
        exact List.mem_append.2 ((List.mem_append.1 hf).imp_right (List.mem_cons_of_mem _))
      refine (ensures_fields_among (fun f hf => known.parts f.2 (mem_parts_of_mem_fields hf)) table
        resolved (fun m sane spares => ih (known.parts w (mem_parts_of_mem_fields (Entries.mem_of_get? get))) sane spares)
        (fun r m h => h.sane) (fun r m m' h => h.still) sane spares).bind (fun rs m' hrs => ?_)
        fun e m' he => ?_
      · obtain ⟨r, rfl, amounts⟩ := hrs
        refine (ensures_rebuilt strict mark entry nodup pending amounts ?_).bind
          (fun u m'' hu => hu) fun e m'' he => he.elim
        exact Nat.lt_of_lt_of_le (table n _ entry) amounts.sane.start
      · rcases he with (⟨breach, h⟩ | ⟨_, h, -⟩) | h
        · cases h
          exact .inl (.inl ⟨breach, rfl⟩)
        · cases h
        · cases o with
          | none =>
            obtain ⟨e', h⟩ := h
            cases h
            exact .inr ⟨e', rfl⟩
          | some b =>
            obtain ⟨_, h, -⟩ := h
            cases h

end Resolution

end Hocon
