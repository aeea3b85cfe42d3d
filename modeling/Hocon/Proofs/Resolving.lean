import Hocon.Proofs.Contract
import Hocon.Proofs.References

/-!
# Resolving fulfils its contracts

One lemma for each function that a resolution is made of: if its callees fulfil a contract, so
does the function.  The last of them, `Contract.resolve_run`, closes the recursion.
-/

namespace Hocon

/-! ### Results side by side with what they are for -/

theorem exists_left_of_mem {α β : Type} {R : α → β → Prop} {xs : List α} {ys : List β}
    (h : List.Forall₂ R xs ys) {y : β} (hy : y ∈ ys) : ∃ x ∈ xs, R x y := by
  induction h with
  | nil => cases hy
  | cons hxy _ ih =>
    rcases List.mem_cons.1 hy with rfl | hy
    · exact ⟨_, List.mem_cons_self, hxy⟩
    · obtain ⟨x, hx, hr⟩ := ih hy
      exact ⟨x, List.mem_cons_of_mem _ hx, hr⟩

namespace Resolution

/-- What is left of the fields has keys of theirs. -/
theorem keys_left_sublist (rs : Entries (Option Value)) :
    List.Sublist (Entries.keys (rs.filterMap fun f => f.2.map fun w => (f.1, w)))
      (Entries.keys rs) := by
  induction rs with
  | nil => exact .slnil
  | cons r rs ih =>
    obtain ⟨k, o⟩ := r
    cases o with
    | none => exact ih.cons k
    | some w => exact ih.cons_cons k

/-- Keeps a result if there is one. -/
def keepResult (s : Setting) (v : Value) (a : Option Path) : Option Value → Step (Option Value)
  | none => pure none
  | some w => do
    keep s v a w
    pure (some w)

/-- Resolves what shows of a node, or what is in it. -/
def resolveShown (s : Setting) (c : Surroundings) (v : Value) (a : Option Path) :
    Option (Option Value) → Step (Option Value)
  | none => resolveNode s c v a
  | some none => throw (.cycle c.trace)
  | some (some w) => resolve s c w a

/-- What has a result has it again; anything else is resolved, and the result is kept. -/
theorem resolve_eq (s : Setting) (c : Surroundings) (v : Value) (a : Option Path) :
    resolve s c v a = get >>= fun m =>
      match m.recall? v a with
      | some w => pure (some w)
      | none => resolveShown s c v a (c.showing? v) >>= keepResult s v a := by
  rw [resolve]
  congr 1
  funext m
  cases m.recall? v a with
  | some w => rfl
  | none =>
    simp only []
    split
    · next h =>
      rw [h]
      rfl
    · next h =>
      rw [h]
      rfl
    · next h =>
      rw [h]
      rfl

end Resolution

namespace Resolution.Contract

open Value

variable {s : Setting} {manner : Manner} {K : Contract s manner} {g : Table} {m : Memory}
  {c : Surroundings} {trace : List PathReference}

/-- A result that a run for `v` is expected to give. -/
def Expected (K : Contract s manner) (v : Value) (along : Option Path) (g : Table)
    (result : Option Value) : Prop :=
  (∀ w, result = some w → w.Known g) ∧ K.Answers v along result

/-! ### Keeping -/

theorem Kept.remember {v w : Value} {along : Option Path} (kept : K.Kept g m) (hv : v.Known g)
    (hw : w.Known g) (answer : K.Answers v along (some w)) :
    K.Kept g (m.remember v along w) := by
  obtain ⟨n, mark, entry⟩ := hv.exists_mark
  simp only [Memory.remember, mark]
  refine ⟨kept.below, kept.source, List.forall_mem_cons.2 ⟨?_, kept.memo⟩⟩
  exact ⟨v, entry, hw, answer⟩

theorem keep_run {v w : Value} {along : Option Path} (kept : K.Kept g m) (hv : v.Known g)
    (hw : w.Known g) (answer : K.Answers v along (some w)) :
    K.Run g m trace (keep s v along w) fun _ _ => True := by
  have grows (m' : Memory) (next : m'.next = m.next) : g.Grows False m.next g m'.next :=
    by rw [next]; exact .refl kept.below
  have next (along : Option Path) : (m.remember v along w).next = m.next := by
    unfold Memory.remember
    split <;> rfl
  unfold keep
  split
  · next h =>
    refine Ensures.modify ⟨g, grows _ (next none), kept.remember hv hw ?_, trivial⟩
    exact ⟨K.post_whole answer.post h, answer.wellFormed, fun x hx => .resolved (by cases hx; exact h),
      answer.object⟩
  · next h =>
    -- what is not resolved is an answer only for a path
    cases along with
    | none => exact absurd (answer.settled w rfl).isResolved h
    | some path =>
      simp only [Option.isSome_some, Bool.true_or, if_true]
      exact Ensures.modify ⟨g, grows _ (next _), kept.remember hv hw answer, trivial⟩

/-- A new value that is right as a result. -/
theorem renew_run {v w : Value} {along : Option Path} (kept : K.Kept g m)
    (sound : w.Sound manner False g) (settled : w.Settled along) (post : K.post v along (some w))
    (object : v.fields?.isSome = true → w.fields?.isSome = true) :
    K.Run g m trace (renew w) fun g u => K.Expected v along g (some u) := by
  refine .renew kept sound fun g' known => ?_
  have like := alike_markFrom w m.next
  refine ⟨fun u hu => by cases hu; exact known, K.post_marked _ sound.wellFormed post,
    fun u hu => ?_, fun u hu => ?_, fun hv => ⟨_, rfl, like.fields?_isSome_eq.trans (object hv)⟩⟩
  · cases hu
    exact sound.wellFormed.alike K.query_alike like
  · cases hu
    exact settled.alike sound.wellFormed like

/-! ### Rebuilding -/

section Rebuilding

variable {p : Provenance} {closed : Bool} {fs : Entries Value} {along : Option Path}
  {rs : Entries (Option Value)}

/-- A field that is left has the answer for the field that it was, or is that field. -/
theorem exists_field_of_mem (h : List.Forall₂ (FieldAnswer manner K.post along) fs rs) {k : String}
    {u : Value} (hu : (k, u) ∈ rs.filterMap fun f => f.2.map fun w => (f.1, w)) :
    ∃ v, (k, v) ∈ fs ∧ (k, some u) ∈ rs ∧
      match alongField along k with
      | some a => K.Answers v a (some u)
      | none => u = v := by
  obtain ⟨⟨k', r⟩, hr, he⟩ := List.mem_filterMap.1 hu
  obtain ⟨w, hw, he⟩ := Option.map_eq_some_iff.1 he
  simp only at hw
  subst hw
  cases he
  obtain ⟨⟨k'', v⟩, hv, hk, answer⟩ := exists_left_of_mem h hr
  simp only at hk answer
  subst hk
  refine ⟨v, hv, hr, ?_⟩
  cases ha : alongField along k' with
  | none =>
    rw [ha] at answer
    exact Option.some.inj answer
  | some a =>
    rw [ha] at answer
    exact answer

theorem keys_sublist (h : List.Forall₂ (FieldAnswer manner K.post along) fs rs) :
    List.Sublist (Entries.keys (rs.filterMap fun f => f.2.map fun w => (f.1, w)))
      (Entries.keys fs) := by
  have same : Entries.keys rs = Entries.keys fs := by
    induction h with
    | nil => rfl
    | cons answer _ ih => exact congrArg₂ List.cons answer.1 ih
  exact same ▸ keys_left_sublist rs

/-- Results that are all the nodes they are for. -/
theorem filterMap_fields (h : List.Forall₂ (FieldAnswer manner K.post along) fs rs)
    (hfs : ∀ f ∈ fs, f.2.Known g) (hrs : ∀ k u, (k, some u) ∈ rs → u.Known g)
    (same : rs.map (fun f => f.2.bind Value.mark) = fs.map fun f => f.2.mark) :
    (rs.filterMap fun f => f.2.map fun w => (f.1, w)) = fs := by
  induction h with
  | nil => rfl
  | @cons f r _ _ hfr _ ih =>
    obtain ⟨k, o⟩ := r
    obtain ⟨k', v⟩ := f
    have hk : k = k' := hfr.1
    subst hk
    simp only [List.map_cons, List.cons.injEq] at same
    have known := hfs _ List.mem_cons_self
    obtain ⟨n, hn, -⟩ := known.exists_mark
    cases o with
    | none =>
      rw [hn] at same
      cases same.1
    | some u =>
      have : u = v := (hrs k u List.mem_cons_self).eq_of_mark known same.1
      subst this
      have rest := ih (fun f hf => hfs f (List.mem_cons_of_mem _ hf))
        (fun k u hu => hrs k u (List.mem_cons_of_mem _ hu)) same.2
      simp only [List.filterMap_cons, Option.map_some, rest]

theorem rebuildObject_run (kept : K.Kept g m) (known : (object p closed fs).Known g)
    (wf : (object p closed fs).WellFormed manner) (pre : K.pre g c (object p closed fs) along)
    (h : List.Forall₂ (FieldAnswer manner K.post along) fs rs)
    (hrs : ∀ k u, (k, some u) ∈ rs → u.Known g) :
    K.Run g m trace (rebuildObject (object p closed fs) fs rs)
      fun g w => K.Expected (object p closed fs) along g (some w) := by
  have post := K.post_object pre wf h
  unfold rebuildObject
  split
  · next same =>
    have hfs : ∀ f ∈ fs, f.2.Known g := fun f hf =>
      known.parts f.2 (mem_parts_of_mem_fields hf)
    have eq := filterMap_fields h hfs hrs (beq_iff_eq.1 same)
    refine .pure kept ⟨fun w hw => by cases hw; exact known, by simpa only [eq] using post p,
      fun w hw => by cases hw; exact wf, fun w hw => ?_, fun _ => ⟨_, rfl, rfl⟩⟩
    cases hw
    refine .object fun k u a hu ha => ?_
    rw [← eq] at hu
    obtain ⟨v, -, -, answer⟩ := exists_field_of_mem h hu
    rw [ha] at answer
    exact answer.settled u rfl
  · -- a new object with the fields that are left
    have nodup := (keys_sublist h).nodup wf.nodup
    have fields (k : String) (u : Value)
        (hu : (k, u) ∈ rs.filterMap fun f => f.2.map fun w => (f.1, w)) :
        u.Sound manner False g ∧ ∀ a, alongField along k = some a → u.Settled a := by
      obtain ⟨v, hv, hr, answer⟩ := exists_field_of_mem h hu
      cases ha : alongField along k with
      | none =>
        rw [ha] at answer
        subst answer
        exact ⟨⟨wf.parts u (mem_parts_of_mem_fields hv), .known (hrs k u hr)⟩, nofun⟩
      | some a =>
        rw [ha] at answer
        refine ⟨⟨answer.wellFormed u rfl, .known (hrs k u hr)⟩, fun a' ha' => ?_⟩
        cases ha'
        exact answer.settled u rfl
    have sound : (Value.object { origin := p.origin } closed
        (rs.filterMap fun f => f.2.map fun w => (f.1, w))).Sound manner False g :=
      .ofFields rfl wf.lines nodup fun k u hu => (fields k u hu).1
    have settled : (Value.object { origin := p.origin } closed
        (rs.filterMap fun f => f.2.map fun w => (f.1, w))).Settled along :=
      .object fun k u a hu ha => (fields k u hu).2 a ha
    exact renew_run kept sound settled (post _) fun _ => rfl

theorem rebuildList_run {xs : List Value} {rs : List (Option Value)} (kept : K.Kept g m)
    (known : (list p xs).Known g) (wf : (list p xs).WellFormed manner)
    (pre : K.pre g c (list p xs) none)
    (h : List.Forall₂ (fun x r => K.Answers x none r) xs rs)
    (hrs : ∀ u, some u ∈ rs → u.Known g) :
    K.Run g m trace (rebuildList (list p xs) xs rs)
      fun g w => K.Expected (list p xs) none g (some w) := by
  have post := K.post_list pre h
  have items (u : Value) (hu : u ∈ rs.filterMap id) :
      u.Sound manner False g ∧ u.isResolved = true := by
    obtain ⟨r, hr, e⟩ := List.mem_filterMap.1 hu
    cases e
    obtain ⟨x, -, answer⟩ := exists_left_of_mem h hr
    exact ⟨⟨answer.wellFormed u rfl, .known (hrs u hr)⟩, (answer.settled u rfl).isResolved⟩
  have resolved (q : Provenance) : (list q (rs.filterMap id)).Settled none :=
    .resolved (isResolved_iff.2 ⟨rfl, fun u hu => (items u hu).2⟩)
  unfold rebuildList
  split
  · next same =>
    have eq : rs.filterMap id = xs := by
      have same := beq_iff_eq.1 same
      have hxs : ∀ x ∈ xs, x.Known g := known.parts
      clear post pre wf known items resolved ‹(_ == _) = true›
      induction h with
      | nil => rfl
      | @cons x r _ _ _ _ ih =>
        simp only [List.map_cons, List.cons.injEq] at same
        have known := hxs _ List.mem_cons_self
        obtain ⟨n, hn, -⟩ := known.exists_mark
        cases r with
        | none =>
          rw [hn] at same
          cases same.1
        | some u =>
          have : u = x := (hrs u List.mem_cons_self).eq_of_mark known same.1
          subst this
          have rest := ih (fun u hu => hrs u (List.mem_cons_of_mem _ hu)) same.2
            fun x hx => hxs x (List.mem_cons_of_mem _ hx)
          exact congrArg (u :: ·) rest
    rw [eq] at post resolved
    exact .pure kept ⟨fun w hw => by cases hw; exact known, post p,
      fun w hw => by cases hw; exact wf, fun w hw => by cases hw; exact resolved p, nofun⟩
  · exact renew_run kept (.ofItems wf.lines fun u hu => (items u hu).1) (resolved _) (post _) nofun

end Rebuilding

/-- Resolved pieces are joined, or cannot be joined. -/
theorem joinPieces_run {p : Provenance} {ps : List Value} {along : Option Path}
    {rs : List (Option Value)} (kept : K.Kept g m) (pre : K.pre g c (concat p ps) along)
    (wf : (concat p ps).WellFormed manner)
    (h : List.Forall₂ (fun x r => K.Answers x none r) ps rs)
    (hrs : ∀ u, some u ∈ rs → u.Known g) :
    K.Run g m c.trace (joinPieces s (concat p ps) (rs.filterMap id))
      fun g r => K.Expected (concat p ps) along g r := by
  have post := K.post_concat pre wf h
  have pieces (u : Value) (hu : u ∈ rs.filterMap id) :
      u.Sound manner False g ∧ u.WellFormed manner ∧ u.Settled none := by
    obtain ⟨r, hr, e⟩ := List.mem_filterMap.1 hu
    cases e
    obtain ⟨x, -, answer⟩ := exists_left_of_mem h hr
    exact ⟨⟨answer.wellFormed u rfl, .known (hrs u hr)⟩, answer.wellFormed u rfl,
      answer.settled u rfl⟩
  unfold joinPieces
  rcases joinRun_of_isPending fun u hu => isPending_of_isResolved (pieces u hu).2.2.isResolved
    with ⟨ws, hws, one⟩ | ⟨o, fault, he⟩
  · rw [hws] at post ⊢
    match ws, one with
    | [], _ => exact .pure kept ⟨nofun, post, nofun, nofun, nofun⟩
    | [w], _ =>
      have sound := Sound.joinClosed.joinRun (fun u hu => (pieces u hu).1) hws w
        List.mem_cons_self
      have settled := Settled.joinClosed.joinRun (fun u hu => (pieces u hu).2) hws w
        List.mem_cons_self
      refine .bind (renew_run kept sound (.resolved settled.2.isResolved) post nofun)
        fun u g' m' _ kept' hu => .pure kept' hu
  · rw [he] at post ⊢
    exact .throw kept post

/-- The nodes of what shows below a layer get marks beforehand. -/
theorem reserve_run {below : List Value} (kept : K.Kept g m)
    (sound : ∀ l ∈ below, l.Sound manner False g) :
    K.Run g m trace (reserve below) fun g' base =>
      ∀ w, mergeLayers? below = some w → (w.markFrom base).1.Known g' := by
  unfold reserve
  cases hw : mergeLayers? below with
  | none => exact Ensures.modifyGet ⟨g, .refl kept.below, kept, nofun⟩
  | some w =>
    obtain ⟨g', grows, known⟩ := exists_known_markFrom w g m.next kept.below
      (Sound.mergeLayers? sound hw).markable
    refine Ensures.modifyGet ⟨g', grows, kept.grows grows rfl, fun u hu => ?_⟩
    cases hu
    exact known

/-! ### Looking up -/

/-- A run that resolves `v` and fulfils the contract. -/
abbrev Resolves (K : Contract s manner) (g : Table) (m : Memory) (trace : List PathReference)
    (x : Step (Option Value)) (v : Value) (along : Option Path) : Prop :=
  K.Run g m trace x (K.Expected v along)

/-- What is found in a source is a node of what the source was resolved to. -/
theorem findIn_run {resolve : Value → Option Path → Step (Option Value)} {e : Value}
    {path : Path} (source : s.IsSource e) (kept : K.Kept g m)
    (h : K.Resolves g m trace (resolve e (some path)) e (some path)) :
    K.Run g m trace (findIn resolve e path) fun g found => Found manner K.post e path found
      ∧ ∀ u, found = some u → u.Known g ∧ u.WellFormed manner := by
  refine .bind h fun r g' m' _ kept' hr => ?_
  obtain ⟨known, answer⟩ := hr
  obtain ⟨w, rfl, object⟩ := answer.object (kept.source e source).2.2
  have valued : w.isObjectValued = true := by
    cases w <;> first | rfl | cases object
  obtain ⟨found, peek, parts⟩ := (answer.settled w rfl).exists_peekThrough
    (P := fun u => u.Known g' ∧ u.WellFormed manner)
    (fun u hu x hx => ⟨hu.1.parts x hx, hu.2.parts x hx⟩) (fun u hu => hu.2)
    ⟨known w rfl, answer.wellFormed w rfl⟩
  simp only [valued, if_true, peek]
  exact .pure kept' ⟨⟨w, answer, peek⟩, parts⟩

theorem lookUp_run {resolve : List PathReference → Value → Option Path → Step (Option Value)}
    {p : Provenance} {r : Reference} {n : Nat} {along : Option Path} (kept : K.Kept g m)
    (opens : Opens g c) (known : (Value.reference p r).Known g)
    (pre : K.pre g c (.reference p r) along) (mark : p.mark = some n) (available : n ∈ c.available)
    (h : ∀ trace v along g m, K.Kept g m → Opens g c → v.Known g → v.WellFormed manner →
      K.pre g (c.within n trace) v along → K.Resolves g m trace (resolve trace v along) v along) :
    K.Run g m (c.trace ++ [r.target]) (lookUp s resolve c.trace r along) fun g' result =>
      (∀ w, result = some w → w.Known g') ∧ LookedUp manner K.post s r along result := by
  -- looking into a source at any later time
  have find {g' : Table} {m' : Memory} (kept' : K.Kept g' m')
      (grows : g.Grows False m.next g' m'.next) {e : Value} (source : s.IsSource e) {path : Path}
      (tried : path ∈ r.paths) :
      K.Run g' m' (c.trace ++ [r.target])
        (findIn (resolve (c.trace ++ [{ r.target with path }])) e path)
        fun g found => Found manner K.post e path found
          ∧ ∀ u, found = some u → u.Known g ∧ u.WellFormed manner :=
    .retrace (findIn_run source kept' (h _ e (some path)
      g' m' kept' (opens.grows grows) (kept'.source e source).1 (kept'.source e source).2.1
      (K.source (K.pre_grows grows pre) (grows.known known) mark available tried source)))
  -- resolving what was found there
  have follow {g' : Table} {m' : Memory} (kept' : K.Kept g' m')
      (grows : g.Grows False m.next g' m'.next) {e u : Value} (source : s.IsSource e) {path : Path}
      (tried : path ∈ r.paths) (found : Found manner K.post e path (some u))
      (hu : u.Known g' ∧ u.WellFormed manner) :
      K.Run g' m' (c.trace ++ [r.target])
        (resolve (c.trace ++ [{ r.target with path }]) u along) (K.Expected u along) :=
    .retrace (h _ u along g' m' kept' (opens.grows grows) hu.1 hu.2
      (K.target (K.pre_grows grows pre) (grows.known known) mark available tried source found))
  have whole : r.target.path ∈ r.paths := List.mem_cons_self
  unfold lookUp
  refine .bind (find kept (.refl kept.below) (.inl rfl) whole) fun found g₁ m₁ grows₁ kept₁ hf => ?_
  obtain ⟨found₁, known₁⟩ := hf
  cases found with
  | some u =>
    refine (follow kept₁ grows₁ (.inl rfl) whole found₁ (known₁ u rfl)).mono fun g' result hr => ?_
    exact ⟨hr.1, .root found₁ hr.2⟩
  | none =>
    cases hp : r.target.path.drop? r.included with
    | none =>
      refine .pure kept₁ ⟨nofun, .missing (fun path tried => ?_) (by rw [hp]; nofun)⟩
      rw [Reference.paths, hp] at tried
      rw [List.mem_singleton.1 tried]
      exact found₁
    | some path =>
      have inner : path ∈ r.paths := by simp [Reference.paths, hp]
      have nowhere (missing : Found manner K.post s.root path none) (q : Path) (tried : q ∈ r.paths) :
          Found manner K.post s.root q none := by
        rw [Reference.paths, hp] at tried
        rcases List.mem_cons.1 tried with rfl | tried
        · exact found₁
        · rw [List.mem_singleton.1 tried]
          exact missing
      refine .ite_bind (Q := fun g found => Found manner K.post s.root path found
        ∧ ∀ u, found = some u → u.Known g ∧ u.WellFormed manner) (y := pure none) ?_
        fun found g₂ m₂ grows₂ kept₂ hf => ?_
      · split
        · exact find kept₁ grows₁ (.inl rfl) inner
        · next h =>
          -- the path was tried already
          have same : some r.target.path = some path := by
            rw [← hp, Nat.eq_zero_of_not_pos h]
            rfl
          exact .pure kept₁ ⟨Option.some.inj same ▸ found₁, nofun⟩
      obtain ⟨found₂, known₂⟩ := hf
      cases found with
      | some u =>
        refine (follow kept₂ (grows₁.trans grows₂) (.inl rfl) inner found₂ (known₂ u rfl)).mono
          fun g' result hr => ?_
        exact ⟨hr.1, .inner found₁ hp found₂ hr.2⟩
      | none =>
        cases he : s.environment with
        | none => exact .pure kept₂ ⟨nofun, .missing (nowhere found₂) (by rw [he]; nofun)⟩
        | some e =>
          refine .bind (find kept₂ (grows₁.trans grows₂) (.inr he) inner)
            fun found g₃ m₃ grows₃ kept₃ hf => ?_
          obtain ⟨found₃, known₃⟩ := hf
          cases found with
          | some u =>
            refine (follow kept₃ ((grows₁.trans grows₂).trans grows₃) (.inr he) inner found₃
              (known₃ u rfl)).mono fun g' result hr => ?_
            exact ⟨hr.1, .environment (nowhere found₂) hp he found₃ hr.2⟩
          | none =>
            refine .pure kept₃ ⟨nofun, .missing (nowhere found₂) fun e' path' he' hp' => ?_⟩
            cases he.symm.trans he'
            cases hp.symm.trans hp'
            exact found₃

/-- A lookup comes to a result for what it points at. -/
theorem LookedUp.answer {r : Reference} {along : Option Path} {w : Value}
    (h : LookedUp manner K.post s r along (some w)) : w.WellFormed manner ∧ w.Settled along := by
  cases h with
  | root _ target => exact ⟨target.wellFormed w rfl, target.settled w rfl⟩
  | inner _ _ _ target => exact ⟨target.wellFormed w rfl, target.settled w rfl⟩
  | environment _ _ _ _ target => exact ⟨target.wellFormed w rfl, target.settled w rfl⟩

/-- What a lookup comes to is settled for the reference: what is found is its result, nothing
is fine if it is optional, and a cycle counts as nothing. -/
theorem settleLookup_run {x : Step (Option Value)} {p : Provenance} {r : Reference}
    {along : Option Path} (pre : K.pre g c (.reference p r) along)
    (wf : (Value.reference p r).WellFormed manner)
    (h : K.Run g m (c.trace ++ [r.target]) x fun g' result =>
      (∀ w, result = some w → w.Known g') ∧ LookedUp manner K.post s r along result) :
    K.Resolves g m c.trace (settleLookup s (.reference p r) r.target x) (.reference p r) along := by
  have nothing (post : K.post (.reference p r) along none) :
      K.Answers (.reference p r) along none := ⟨post, nofun, nofun, nofun⟩
  unfold settleLookup
  -- a cycle has been dealt with once the lookup is left
  refine Run.bind (Q := fun g' found => (∀ w, found = some w → w.Known g') ∧
    (LookedUp manner K.post s r along found
      ∨ found = none ∧ r.target.optional = true ∧ K.Answers (.reference p r) along none))
    (Ensures.tryCatch h ?ok ?failed) ?_
  case ok =>
    rintro found m' ⟨g', grows, kept, known, found'⟩
    exact ⟨g', grows, kept, known, .inl found'⟩
  case failed =>
    rintro f m' ⟨g', grows, kept, fail⟩
    cases f with
    | error e => exact Ensures.throw ⟨g', grows, kept, K.error fail⟩
    | cycle trace =>
      have cycle := K.cycle pre wf fail
      split at cycle
      · next optional =>
        simp only [optional, if_true]
        exact Ensures.pure ⟨g', grows, kept, nofun, .inr ⟨rfl, trivial, nothing cycle⟩⟩
      · next optional =>
        simp only [optional]
        exact Ensures.throw ⟨g', grows, kept, cycle⟩
  rintro found g' m' grows kept ⟨known, found'⟩
  cases found with
  | some w =>
    rcases found' with found' | ⟨h, -⟩
    · have answer := LookedUp.answer found'
      refine .pure kept ⟨known, K.post_reference pre wf found', fun u hu => ?_, fun u hu => ?_, nofun⟩
      · cases hu
        exact answer.1
      · cases hu
        exact answer.2
    · cases h
  | none =>
    rcases found' with found' | ⟨-, optional, answer⟩
    · have missing := K.missing pre wf found'
      split at missing
      · next optional =>
        simp only [optional, if_true]
        exact .pure kept ⟨nofun, nothing missing⟩
      · next optional =>
        simp only [optional, K.strict, if_false, Bool.false_eq_true]
        exact .throw kept missing
    · simp only [optional, if_true]
      exact .pure kept ⟨nofun, answer⟩

/-! ### Open merges -/

/-- What shows of an open merge is known and well formed. -/
theorem shown_known (K : Contract s manner) {v w : Value} (opens : Opens g c) (known : v.Known g)
    (wf : v.WellFormed manner) (h : c.showing? v = some (some w)) :
    w.Known g ∧ w.WellFormed manner := by
  cases v with
  | merge p k ls =>
    obtain ⟨o, ho, hw⟩ := Option.map_eq_some_iff.1 h
    obtain ⟨u, hu, rfl⟩ := Option.map_eq_some_iff.1 hw
    obtain ⟨p', k', ls', hg, shown⟩ := opens o (List.mem_of_find?_eq_some ho)
    have mark : (merge p k ls).mark = some o.node := by
      have := List.find?_some ho
      exact (beq_iff_eq.1 this).symm
    -- the merge that is open is this one
    cases hg.symm.trans (known.entry mark)
    have layers (l : Value) (hl : l ∈ ls.drop (o.layer + 1)) : l.Sound manner False g :=
      ⟨wf.parts l (List.mem_of_mem_drop hl), .known (known.parts l (List.mem_of_mem_drop hl))⟩
    exact ⟨shown u hu, WellFormed.markFrom K.query_alike (Sound.mergeLayers? layers hu).wellFormed _⟩
  | _ => cases h

/-! ### The recursion -/

variable (K)

/-- What resolving a node does if the contract allows it. -/
def Fulfils (resolve : Step (Option Value)) (c : Surroundings) (v : Value) (along : Option Path) :
    Prop :=
  ∀ g m, K.Kept g m → Opens g c → v.Known g → v.WellFormed manner → K.pre g c v along →
    K.Resolves g m c.trace resolve v along

/-- What resolving items does. -/
def FulfilsItems (c : Surroundings) (xs : List Value) : Prop :=
  ∀ g m, K.Kept g m → Opens g c →
    (∀ x ∈ xs, x.Known g ∧ x.WellFormed manner ∧ K.pre g c x none) →
    K.Run g m c.trace (resolveItems s c xs) fun g' rs =>
      (∀ u, some u ∈ rs → u.Known g') ∧ List.Forall₂ (fun x r => K.Answers x none r) xs rs

/-- What resolving fields does. -/
def FulfilsFields (c : Surroundings) (along : Option Path) (fs : Entries Value) : Prop :=
  ∀ g m, K.Kept g m → Opens g c →
    (∀ k v, (k, v) ∈ fs → v.Known g ∧ v.WellFormed manner
      ∧ ∀ a, alongField along k = some a → K.pre g c v a) →
    K.Run g m c.trace (resolveFields s c along fs) fun g' rs =>
      (∀ k u, (k, some u) ∈ rs → u.Known g') ∧
        List.Forall₂ (FieldAnswer manner K.post along) fs rs

/-- What resolving the layers of a merge does, where the first `layer` of them are resolved and
merged to `above`. -/
def FulfilsLayers (c : Surroundings) (whole : Value) (node : Option Nat) (along : Option Path)
    (layer : Nat) (above : Option Value) (below : List Value) : Prop :=
  ∀ g m, K.Kept g m → Opens g c → ∀ p k ls done, whole = merge p k ls → node = p.mark →
    ls.drop layer = below → whole.Known g → whole.WellFormed manner → K.pre g c whole along →
    List.Forall₂ (fun l r => K.Answers l along r) (ls.take layer) done →
    above = done.foldl Entries.overlay none →
    (∀ w, above = some w → w.Sound manner False g ∧ w.Settled along) →
    K.Run g m c.trace (resolveLayers s c whole node along layer above below) fun g' r =>
      (∀ w, r = some w → w.Sound manner False g' ∧ w.Settled along) ∧
        ∃ rs, List.Forall₂ (fun l r => K.Answers l along r) ls rs
          ∧ r = rs.foldl Entries.overlay none

variable {K}

theorem fulfils_resolve {v : Value} {along : Option Path}
    (node : K.Fulfils (resolveNode s c v along) c v along)
    (shown : ∀ w, c.showing? v = some (some w) → K.Fulfils (resolve s c w along) c w along) :
    K.Fulfils (resolve s c v along) c v along := by
  intro g m kept opens known wf pre
  rw [resolve_eq]
  refine Ensures.get_bind ?_
  cases hm : m.recall? v along with
  | some w =>
    obtain ⟨known', answer⟩ := kept.recall known hm
    exact Run.pure kept ⟨fun u hu => by cases hu; exact known', answer⟩
  | none =>
    refine Run.bind (Q := K.Expected v along) ?shown fun r g' m' grows kept' hr => ?keep
    case shown =>
      cases h : c.showing? v with
      | none => exact node g m kept opens known wf pre
      | some showing =>
        cases showing with
        | none => exact .throw kept (K.hidden pre known h)
        | some w =>
          obtain ⟨known', wf'⟩ := shown_known K opens known wf h
          refine (shown w h g m kept opens known' wf' (K.shown pre known h)).mono fun g' r hr => ?_
          refine ⟨hr.1, K.post_shown pre known h hr.2.post, hr.2.wellFormed, hr.2.settled,
            fun hv => ?_⟩
          cases v <;> first | cases h | cases hv
    case keep =>
      -- a result is kept under the mark of the node
      cases r with
      | none => exact .pure kept' hr
      | some w =>
        refine .bind (keep_run kept' (grows.known known) (hr.1 w rfl) hr.2)
          fun _ g'' m'' grows' kept'' _ => .pure kept'' ⟨fun u hu => ?_, hr.2⟩
        exact grows'.known (hr.1 u hu)

theorem fulfils_items_cons {v : Value} {vs : List Value}
    (head : K.Fulfils (resolve s c v none) c v none) (tail : K.FulfilsItems c vs) :
    K.FulfilsItems c (v :: vs) := by
  intro g m kept opens hvs
  obtain ⟨⟨known, wf, pre⟩, hvs⟩ := List.forall_mem_cons.1 hvs
  rw [resolveItems]
  refine .bind (head g m kept opens known wf pre) fun r g₁ m₁ grows₁ kept₁ hr => ?_
  refine .bind (tail g₁ m₁ kept₁ (opens.grows grows₁) fun x hx =>
    ⟨grows₁.known (hvs x hx).1, (hvs x hx).2.1, K.pre_grows grows₁ (hvs x hx).2.2⟩)
    fun rs g₂ m₂ grows₂ kept₂ hrs => ?_
  refine .pure kept₂ ⟨fun u hu => ?_, .cons hr.2 hrs.2⟩
  rcases List.mem_cons.1 hu with rfl | hu
  · exact grows₂.known (hr.1 u rfl)
  · exact hrs.1 u hu

theorem fulfils_fields_cons {key : String} {v : Value} {fs : Entries Value} {along : Option Path}
    (head : ∀ a, alongField along key = some a → K.Fulfils (resolve s c v a) c v a)
    (tail : K.FulfilsFields c along fs) : K.FulfilsFields c along ((key, v) :: fs) := by
  intro g m kept opens hfs
  obtain ⟨known, wf, pre⟩ := hfs key v List.mem_cons_self
  have rest {g₁ : Table} {m₁ : Memory} (grows₁ : g.Grows False m.next g₁ m₁.next)
      (kept₁ : K.Kept g₁ m₁) {r : Option Value} (hr : ∀ u, r = some u → u.Known g₁)
      (answer : FieldAnswer manner K.post along (key, v) (key, r)) :
      K.Run g₁ m₁ c.trace (do
          let rs ← resolveFields s c along fs
          pure ((key, r) :: rs)) fun g' rs => (∀ k u, (k, some u) ∈ rs → u.Known g') ∧
        List.Forall₂ (FieldAnswer manner K.post along) ((key, v) :: fs) rs := by
    refine .bind (tail g₁ m₁ kept₁ (opens.grows grows₁) fun k u hu => ?_)
      fun rs g₂ m₂ grows₂ kept₂ hrs => .pure kept₂ ⟨fun k u hu => ?_, .cons answer hrs.2⟩
    · obtain ⟨known, wf, pre⟩ := hfs k u (List.mem_cons_of_mem _ hu)
      exact ⟨grows₁.known known, wf, fun a ha => K.pre_grows grows₁ (pre a ha)⟩
    · rcases List.mem_cons.1 hu with e | hu
      · cases e
        exact grows₂.known (hr u rfl)
      · exact hrs.1 k u hu
  rw [resolveFields]
  cases ha : alongField along key with
  | none =>
    -- the path does not lead to this field
    refine rest (.refl kept.below) kept (r := some v) (fun u hu => ?_) ⟨rfl, by simp only [ha]⟩
    cases hu
    exact known
  | some a =>
    refine .bind (head a ha g m kept opens known wf (pre a ha)) fun r g₁ m₁ grows₁ kept₁ hr =>
      rest grows₁ kept₁ hr.1 ⟨rfl, ?_⟩
    simp only [ha]
    exact hr.2

theorem overlay_eq (above result : Option Value) :
    (match above, result with
      | some above, some w => some (above.withFallback w)
      | none, some w => some w
      | above, none => above) = Entries.overlay above result := by
  cases above <;> cases result <;> rfl

theorem fulfils_layers_cons {whole : Value} {node : Option Nat} {along : Option Path}
    {layer : Nat} {above : Option Value} {v : Value} {below : List Value}
    (head : ∀ base, K.Fulfils (resolve s (c.opening node layer base v) v along)
      (c.opening node layer base v) v along)
    (tail : ∀ result, K.FulfilsLayers c whole node along (layer + 1)
      (Entries.overlay above result) below) :
    K.FulfilsLayers c whole node along layer above (v :: below) := by
  intro g m kept opens p k ls done hw hnode hdrop known wf pre hdone habove hsound
  subst hw hnode
  have hv : ls[layer]? = some v := by
    rw [← List.head?_drop, hdrop]
    rfl
  have hbelow : ls.drop (layer + 1) = below := by
    rw [← List.tail_drop, hdrop]
    rfl
  have hmem : v ∈ ls := List.mem_of_getElem? hv
  have flat : v.isMerge = false := wf.flat v hmem
  rw [resolveLayers]
  swap
  · rintro p k ls rfl
    cases flat
  simp only [Bool.false_eq_true, if_false]
  have rest {base : Nat} {g₁ : Table} {m₁ : Memory} (grows₁ : g.Grows False m.next g₁ m₁.next)
      (kept₁ : K.Kept g₁ m₁) (shown : v.isPending = true →
        ∀ w, mergeLayers? below = some w → (w.markFrom base).1.Known g₁)
      {next : Option Value → Step (Option Value)}
      (hnext : ∀ result, next result = resolveLayers s c (merge p k ls) p.mark along (layer + 1)
        (Entries.overlay above result) below) :
      K.Run g₁ m₁ c.trace (resolve s (c.opening p.mark layer base v) v along >>= next)
        fun g' r => (∀ w, r = some w → w.Sound manner False g' ∧ w.Settled along) ∧
          ∃ rs, List.Forall₂ (fun l r => K.Answers l along r) ls rs
            ∧ r = rs.foldl Entries.overlay none := by
    have opens₁ : Opens g₁ (c.opening p.mark layer base v) := by
      obtain ⟨n, mark, entry⟩ := known.exists_mark
      have mark : p.mark = some n := mark
      intro o ho
      cases hp : v.isPending with
      | false =>
        simp only [Surroundings.opening, hp] at ho
        exact (opens.grows grows₁) o ho
      | true =>
        simp only [Surroundings.opening, hp, mark] at ho
        rcases List.mem_cons.1 ho with rfl | ho
        · exact ⟨p, k, ls, grows₁.keeps _ _ entry, hbelow.symm ▸ shown hp⟩
        · exact (opens.grows grows₁) o ho
    refine .bind (head base g₁ m₁ kept₁ opens₁ (grows₁.known (known.parts v hmem))
      (wf.parts v hmem) (K.layer (K.pre_grows grows₁ pre) (grows₁.known known) wf hv))
      fun result g₂ m₂ grows₂ kept₂ hr => ?_
    have grows := grows₁.trans grows₂
    have sound₂ (w : Value) (hw : result = some w) : w.Sound manner False g₂ ∧ w.Settled along :=
      ⟨⟨hr.2.wellFormed w hw, .known (hr.1 w hw)⟩, hr.2.settled w hw⟩
    rw [hnext]
    refine (tail result g₂ m₂ kept₂ (opens.grows grows) p k ls (done ++ [result]) rfl rfl hbelow
      (grows.known known) wf (K.pre_grows grows pre) ?_ ?_ fun w hw => ?_)
    · rw [List.take_add_one, hv]
      exact List.rel_append hdone (.cons hr.2 .nil)
    · rw [habove, List.foldl_append]
      rfl
    · cases above with
      | none => exact sound₂ w hw
      | some u =>
        have hu := hsound u rfl
        have hu' : u.Sound manner False g₂ := ⟨hu.1.wellFormed, grows.markable hu.1.markable⟩
        cases result with
        | none =>
          cases hw
          exact ⟨hu', hu.2⟩
        | some x =>
          cases hw
          have hx := sound₂ x rfl
          exact ⟨hu'.withFallback hx.1, hu.2.withFallback hu.1.wellFormed hx.1.wellFormed hx.2⟩
  -- only a layer that waits can come back to the merge
  split
  · refine .bind (reserve_run kept fun l hl => ?_) fun base g₁ m₁ grows₁ kept₁ shown => ?_
    · have mem : l ∈ ls := List.mem_of_mem_drop (hbelow ▸ hl)
      exact ⟨wf.parts l mem, .known (known.parts l mem)⟩
    · exact rest grows₁ kept₁ (fun _ => shown) fun result =>
        congrArg (resolveLayers s c _ _ along (layer + 1) · below) (overlay_eq above result)
  · next h =>
    exact rest (.refl kept.below) kept (fun h' => absurd h' h) fun result =>
      congrArg (resolveLayers s c _ _ along (layer + 1) · below) (overlay_eq above result)

theorem fulfils_reference {p : Provenance} {r : Reference} {along : Option Path}
    (h : ∀ n, p.mark = some n → n ∈ c.available → ∀ trace v along,
      K.Fulfils (resolve s (c.within n trace) v along) (c.within n trace) v along) :
    K.Fulfils (resolveNode s c (reference p r) along) c (reference p r) along := by
  intro g m kept opens known wf pre
  obtain ⟨n, mark, -⟩ := known.exists_mark
  have mark : p.mark = some n := mark
  rw [resolveNode]
  split
  · next e => cases mark.symm.trans e
  · next n' e =>
    cases mark.symm.trans e
    split
    · next available =>
      refine settleLookup_run pre wf (lookUp_run kept opens known pre mark available ?_)
      exact fun trace v along g m kept opens known wf pre =>
        h n mark available trace v along g m kept opens known wf pre
    · next unavailable => exact .throw kept (K.unavailable pre known mark unavailable)

theorem fulfils_self {v : Value} {along : Option Path} (resolved : v.isResolved = true)
    (h : resolveNode s c v along = pure (some v)) :
    K.Fulfils (resolveNode s c v along) c v along := by
  intro g m kept opens known wf pre
  rw [h]
  refine .pure kept ⟨fun w hw => by cases hw; exact known, K.post_self pre resolved,
    fun w hw => by cases hw; exact wf, fun w hw => by cases hw; exact .resolved resolved,
    fun hv => ⟨v, rfl, hv⟩⟩

theorem fulfils_object {p : Provenance} {closed : Bool} {fs : Entries Value}
    {along : Option Path} (waits : ¬ fieldsResolved fs = true) (h : K.FulfilsFields c along fs) :
    K.Fulfils (resolveNode s c (object p closed fs) along) c (object p closed fs) along := by
  intro g m kept opens known wf pre
  rw [resolveNode, if_neg waits]
  refine .bind (h g m kept opens fun k v hv => ⟨known.parts v (mem_parts_of_mem_fields hv),
    wf.parts v (mem_parts_of_mem_fields hv), fun a ha => K.field pre hv ha⟩)
    fun rs g₁ m₁ grows kept₁ hrs => ?_
  exact .bind (rebuildObject_run kept₁ (grows.known known) wf (K.pre_grows grows pre) hrs.2 hrs.1)
    fun w g₂ m₂ _ kept₂ hw => .pure kept₂ hw

theorem fulfils_list {p : Provenance} {xs : List Value} {along : Option Path}
    (waits : ¬ (itemsResolved xs || along.isSome) = true) (h : K.FulfilsItems c xs) :
    K.Fulfils (resolveNode s c (list p xs) along) c (list p xs) along := by
  intro g m kept opens known wf pre
  cases along with
  | some path => simp at waits
  | none =>
    rw [resolveNode, if_neg waits]
    refine .bind (h g m kept opens fun x hx =>
      ⟨known.parts x hx, wf.parts x hx, K.item pre hx⟩) fun rs g₁ m₁ grows kept₁ hrs => ?_
    exact .bind (rebuildList_run kept₁ (grows.known known) wf (K.pre_grows grows pre) hrs.2 hrs.1)
      fun w g₂ m₂ _ kept₂ hw => .pure kept₂ hw

theorem fulfils_concat {p : Provenance} {ps : List Value} {along : Option Path}
    (h : K.FulfilsItems c ps) :
    K.Fulfils (resolveNode s c (concat p ps) along) c (concat p ps) along := by
  intro g m kept opens known wf pre
  rw [resolveNode]
  refine .bind (h g m kept opens fun x hx =>
    ⟨known.parts x hx, wf.parts x hx, K.piece pre hx⟩) fun rs g₁ m₁ grows kept₁ hrs => ?_
  exact joinPieces_run kept₁ (K.pre_grows grows pre) wf hrs.2 hrs.1

theorem fulfils_merge {p : Provenance} {k : MergeKind} {ls : List Value} {along : Option Path}
    (h : K.FulfilsLayers c (merge p k ls) p.mark along 0 none ls) :
    K.Fulfils (resolveNode s c (merge p k ls) along) c (merge p k ls) along := by
  intro g m kept opens known wf pre
  rw [resolveNode]
  refine .bind (h g m kept opens p k ls [] rfl rfl rfl known wf pre .nil rfl (by rintro _ ⟨⟩))
    fun r g₁ m₁ grows kept₁ hr => ?_
  obtain ⟨sound, rs, hrs, rfl⟩ := hr
  have post := K.post_merge pre wf hrs
  cases hw : rs.foldl Entries.overlay none with
  | none =>
    rw [hw] at post
    exact .pure kept₁ ⟨by rintro _ ⟨⟩, post, by rintro _ ⟨⟩, by rintro _ ⟨⟩, by rintro ⟨⟩⟩
  | some w =>
    rw [hw] at post
    obtain ⟨sound, settled⟩ := sound w hw
    exact .bind (renew_run kept₁ sound settled post (by rintro ⟨⟩))
      fun u g₂ m₂ _ kept₂ hu => .pure kept₂ hu

/-- **Resolving fulfils every contract.** -/
theorem resolve_run (c : Surroundings) (v : Value) (along : Option Path) :
    K.Fulfils (resolve s c v along) c v along := by
  -- along the recursion of the resolver, one case for each of its branches
  refine (resolve.mutual_induct s
    (fun c v along => K.Fulfils (resolve s c v along) c v along)
    (fun c v along => K.Fulfils (resolveNode s c v along) c v along)
    (fun c whole node along layer above below => K.FulfilsLayers c whole node along layer above below)
    (fun c xs => K.FulfilsItems c xs) (fun c along fs => K.FulfilsFields c along fs)
    ?resolve ?objectResolved ?object ?listResolved ?list ?unmarked ?reference ?unavailable ?concat
    ?merge ?leaf ?noLayers ?nested ?layers ?noItems ?items ?noFields ?field ?otherField).1 c v along
  case resolve => exact fun c v along node shown => fulfils_resolve node shown
  case objectResolved =>
    exact fun c along p closed fs h => fulfils_self h (by rw [resolveNode, if_pos h])
  case object => exact fun c along p closed fs h ih => fulfils_object h ih
  case listResolved =>
    intro c along p xs h
    cases along with
    | none => exact fulfils_self (by simpa [isResolved] using h) (by rw [resolveNode, if_pos h])
    | some path =>
      intro g m kept opens known wf pre
      rw [resolveNode, if_pos h]
      exact .pure kept ⟨fun w hw => by cases hw; exact known, K.post_list_part pre,
        fun w hw => by cases hw; exact wf, fun w hw => by cases hw; exact .list, by rintro ⟨⟩⟩
  case list => exact fun c along p xs h ih => fulfils_list h ih
  case unmarked => exact fun c along p r h => fulfils_reference fun n hn => by simp [h] at hn
  case reference =>
    intro c along p r m hm hc ih
    refine fulfils_reference fun n hn _ => ?_
    cases hm.symm.trans hn
    exact ih
  case unavailable =>
    intro c along p r m hm hc
    refine fulfils_reference fun n hn h => ?_
    cases hm.symm.trans hn
    exact absurd h hc
  case concat => exact fun c along p ps ih => fulfils_concat ih
  case merge => exact fun c along p k ls ih => fulfils_merge ih
  case leaf =>
    intro c v along notObject notList notReference notConcat notMerge
    have : resolveNode s c v along = pure (some v) := by
      rw [resolveNode]
      all_goals assumption
    refine fulfils_self ?_ this
    cases v with
    | object p closed fs => exact (notObject _ _ _ rfl).elim
    | list p xs => exact (notList _ _ rfl).elim
    | reference p r => exact (notReference _ _ rfl).elim
    | concat p ps => exact (notConcat _ _ rfl).elim
    | merge p k ls => exact (notMerge _ _ _ rfl).elim
    | _ => rfl
  case noLayers =>
    intro c whole node along layer above g m kept opens p k ls done hw _ hdrop _ _ _ hdone habove
      sound
    rw [resolveLayers]
    refine .pure kept ⟨sound, done, ?_, habove⟩
    rwa [List.take_of_length_le (List.drop_eq_nil_iff.1 hdrop)] at hdone
  case nested =>
    intro c whole node along layer above v below nested _ _ g m _ _ p k ls _ hw _ hdrop _ wf
    subst hw
    have flat := wf.flat v (List.mem_of_mem_drop (hdrop ▸ List.mem_cons_self))
    cases v with
    | merge p k ls => cases flat
    | _ => exact absurd nested Bool.false_ne_true
  case layers =>
    intro c whole node along layer above v below _ head tail
    refine fulfils_layers_cons head fun result => ?_
    rw [← overlay_eq]
    exact tail result
  case noItems =>
    intro c g m kept opens _
    rw [resolveItems]
    exact .pure kept ⟨by rintro _ ⟨⟩, .nil⟩
  case items => exact fun c v vs head tail => fulfils_items_cons head tail
  case noFields =>
    intro c along g m kept opens _
    rw [resolveFields]
    exact .pure kept ⟨by rintro _ _ ⟨⟩, .nil⟩
  case field =>
    intro c along key v fs a ha tail head
    refine fulfils_fields_cons (fun a' ha' => ?_) tail
    cases ha.symm.trans ha'
    exact head
  case otherField =>
    intro c along key v fs ha tail
    refine fulfils_fields_cons (fun a' ha' => ?_) tail
    cases ha.symm.trans ha'

end Resolution.Contract

/-! ### Whole resolutions -/

namespace Value

theorem nodup_keys_ofPairs {α : Type} (pairs : List (String × α)) :
    (Entries.keys (Entries.ofPairs pairs)).Nodup := by
  have puts (es : Entries α) (h : (Entries.keys es).Nodup) :
      (Entries.keys (pairs.foldl (fun es p => Entries.put es p.1 p.2) es)).Nodup := by
    induction pairs generalizing es with
    | nil => exact h
    | cons p pairs ih => exact ih _ (Entries.nodup_keys_put h p.1 p.2)
  exact puts [] List.nodup_nil

/-- The variables of the environment make a plain object of texts. -/
theorem ofVariables_sound (manner : Manner) {vars : Entries String} (g : Table)
    (nodup : (Entries.keys vars).Nodup) : (ofVariables vars).Sound manner False g := by
  refine .ofFields rfl (.of_nil rfl) ?_ fun k u hu => ?_
  · simpa only [Entries.keys, List.map_map, Function.comp_def] using nodup
  · obtain ⟨e, -, he⟩ := List.mem_map.1 hu
    cases he
    exact .ofText (.of_nil rfl) _

end Value

namespace Resolution

open Value

/-- The setting in which a tree is resolved. -/
def settingOf (o : ResolveOptions) (root : Value) (next : Nat) : Setting :=
  { root, allowUnresolved := o.allowUnresolved
    environment := (o.environment.map fun e => (ofVariables e).markFrom next).map (·.1) }

/-- What a run comes to for those who ask for a whole resolution. -/
def outcome : Except Failure (Option Value) → Except Error Value
  | .ok (some w) => .ok w
  | .ok none => .error (.broken .noResult)
  | .error (.cycle _) => .error (.broken .escapedCycle)
  | .error (.error e) => .error e

/-- What a resolution starts with: the variables of the environment have their marks first. -/
def startOf (o : ResolveOptions) (next : Nat) : Memory :=
  { next := ((o.environment.map fun e => (ofVariables e).markFrom next).map (·.2)).getD next }

theorem run_eq (o : ResolveOptions) (root v : Value) (next : Nat) :
    run o root v next = outcome ((resolve (settingOf o root next)
      { available := v.referenceMarks ++ root.referenceMarks } v none).run.run
      (startOf o next)).1 :=
  rfl

/-- Nothing is kept at the start. -/
theorem Contract.exists_kept {manner : Manner} {o : ResolveOptions} {root : Value} {next : Nat}
    {g : Table} (K : Contract (settingOf o root next) manner)
    (below : ∀ n w, g n = some w → n < next) (root_known : root.Known g)
    (root_wf : root.WellFormed manner) (root_object : root.fields?.isSome = true)
    (nodup : ∀ e, o.environment = some e → (Entries.keys e).Nodup) :
    ∃ g', g.Grows False next g' (startOf o next).next ∧ K.Kept g' (startOf o next) := by
  unfold startOf
  cases he : o.environment with
  | none =>
    refine ⟨g, .refl below, ⟨below, fun e h => ?_, nofun⟩⟩
    rcases h with rfl | h
    · exact ⟨root_known, root_wf, root_object⟩
    · simp [settingOf, he] at h
  | some e =>
    have sound := ofVariables_sound manner g (nodup e he)
    obtain ⟨g', grows, known⟩ := exists_known_markFrom _ g next below sound.markable
    refine ⟨g', grows, ⟨grows.below, fun e' h => ?_, nofun⟩⟩
    rcases h with rfl | h
    · exact ⟨grows.known root_known, root_wf, root_object⟩
    · simp only [settingOf, he, Option.map_some, Option.some.injEq] at h
      subst h
      have like := alike_markFrom (ofVariables e) next
      exact ⟨known, sound.wellFormed.alike K.query_alike like, like.fields?_isSome_eq.trans rfl⟩

/-- **A whole resolution fulfils every contract** that lets it start. -/
theorem Contract.run_spec {manner : Manner} {o : ResolveOptions} {root v : Value}
    {next : Nat} {g : Table} (K : Contract (settingOf o root next) manner)
    (below : ∀ n w, g n = some w → n < next) (root_known : root.Known g)
    (root_wf : root.WellFormed manner) (root_object : root.fields?.isSome = true)
    (known : v.Known g) (wf : v.WellFormed manner)
    (nodup : ∀ e, o.environment = some e → (Entries.keys e).Nodup)
    (pre : ∀ g, root.Known g → v.Known g →
      (∀ (n : Nat) (u : Value), g n = some u → u.mark = some n ∧ (u.Within root ∨ u.Within v)) →
      K.pre g { available := v.referenceMarks ++ root.referenceMarks } v none) :
    match run o root v next with
    | .ok r => K.Answers v none (some r)
    | .error e => K.fail [] (.error e) ∨ (∃ trace, K.fail [] (.cycle trace))
        ∨ K.Answers v none none := by
  classical
  -- other nodes than those of the trees play no part
  let own : Table := fun n => (g n).filter fun u => u.mark = some n ∧ (u.Within root ∨ u.Within v)
  have entries {n : Nat} {u : Value} (hu : own n = some u) :
      g n = some u ∧ u.mark = some n ∧ (u.Within root ∨ u.Within v) := by
    simpa [own, Option.filter_eq_some_iff] using hu
  have below (n : Nat) (w : Value) (hw : own n = some w) : n < next := below n w (entries hw).1
  have root_known : root.Known own := root_known.filter fun _ _ hu mark => ⟨mark, .inl hu⟩
  have known : v.Known own := known.filter fun _ _ hu mark => ⟨mark, .inr hu⟩
  have pre := pre own root_known known fun n u hu => (entries hu).2
  obtain ⟨g', grows, kept⟩ := K.exists_kept below root_known root_wf root_object nodup
  have fulfilled := K.resolve_run { available := v.referenceMarks ++ root.referenceMarks } v none
    g' (startOf o next) kept nofun (grows.known known) wf (K.pre_grows grows pre)
  obtain ⟨g'', -, -, result⟩ := fulfilled
  rw [run_eq]
  generalize ((resolve (settingOf o root next)
      { available := v.referenceMarks ++ root.referenceMarks } v none).run.run
      (startOf o next)).1 = r at result
  match r with
  | .ok (some w) => exact result.2
  | .ok none => exact .inr (.inr result.2)
  | .error (.cycle trace) => exact .inr (.inl ⟨trace, result⟩)
  | .error (.error e) => exact .inl result

/-- The tree that is resolved in place of `v`: the same with marks on all nodes. -/
def marked (v : Value) (next : Nat) : Value × Nat := v.markFrom (max next v.freeMark)

/-- The nodes of the tree with marks can be told apart. -/
theorem exists_known_marked {v : Value} (coherent : v.Coherent) (next : Nat) :
    ∃ g, (marked v next).1.Known g ∧ ∀ n u, g n = some u → n < (marked v next).2 := by
  obtain ⟨g₀, markable, below⟩ := coherent.exists_table (Nat.le_max_right next v.freeMark)
  obtain ⟨g, grows, known⟩ := exists_known_markFrom v g₀ _ below markable
  exact ⟨g, known, grows.below⟩

theorem resolve_eq_run {v : Value} (waits : v.isResolved = false) (o : ResolveOptions)
    (next : Nat) : v.resolve o next = run o (marked v next).1 (marked v next).1 (marked v next).2 := by
  rw [Value.resolve, if_neg (by rw [waits]; exact Bool.false_ne_true)]
  rfl

/-- **Resolving a tree in itself fulfils every contract** that lets it start. -/
theorem Contract.resolve_spec {manner : Manner} {o : ResolveOptions} {v : Value} {next : Nat}
    (K : Contract (settingOf o (marked v next).1 (marked v next).2) manner)
    (coherent : v.Coherent) (wf : v.WellFormed manner) (object : v.fields?.isSome = true)
    (waits : v.isResolved = false)
    (nodup : ∀ e, o.environment = some e → (Entries.keys e).Nodup)
    (pre : ∀ g, (marked v next).1.Known g →
      (∀ n u, g n = some u → u.mark = some n ∧ u.Within (marked v next).1) →
      K.pre g { available := (marked v next).1.referenceMarks ++ (marked v next).1.referenceMarks }
        (marked v next).1 none) :
    match v.resolve o next with
    | .ok r => K.Answers (marked v next).1 none (some r)
    | .error e => K.fail [] (.error e) ∨ ∃ trace, K.fail [] (.cycle trace) := by
  obtain ⟨g, known, below⟩ := exists_known_marked coherent next
  have like : v.Alike (marked v next).1 := alike_markFrom v _
  have wf' := wf.alike K.query_alike like
  have object' := like.fields?_isSome_eq.trans object
  have spec := K.run_spec below known wf' object' known wf' nodup
    fun g known _ nodes => pre g known fun n u hu => (nodes n u hu).imp_right (·.elim id id)
  rw [resolve_eq_run waits]
  split
  · next r hr =>
    rw [hr] at spec
    exact spec
  · next e he =>
    rw [he] at spec
    rcases spec with h | h | h
    · exact .inl h
    · exact .inr h
    · obtain ⟨w, hw, -⟩ := h.object object'
      cases hw

end Resolution

end Hocon
