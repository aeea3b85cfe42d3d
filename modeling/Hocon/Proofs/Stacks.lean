import Hocon.Proofs.Views

/-!
# Layer below layer

The induction behind `Viewed`: a history is resolved to what it comes to if that is true of
everything below its topmost definition.  Three kinds of history begin it: none at all, one value
that needs nothing, and a single definition that looks back and finds itself.  For a merge the
layers are resolved in order, each with the merge open at that layer.  Once the topmost has been
resolved, the others can neither add to it nor fail, and all that matters is what they do to the
memory.
-/

namespace Hocon.Value

/-! ### Piles with marks -/

theorem markItems_of_marked {vs : List Value} (h : ∀ v ∈ vs, ∃ n, v.mark = some n) (next : Nat) :
    markItems next vs = (vs, next) := by
  induction vs generalizing next with
  | nil => rfl
  | cons v vs ih =>
    obtain ⟨⟨n, hn⟩, hvs⟩ := List.forall_mem_cons.1 h
    rw [markItems, markFrom_of_mark hn, ih hvs]

/-- Marking a pile of marked definitions marks the merge of them, if it is one. -/
theorem IsPile.markFrom {v : Value} {ls : List Value} (h : IsPile v ls)
    (new : v.isMerge = true → v.mark = none) (marked : ∀ l ∈ ls, ∃ n, l.mark = some n)
    (next : Nat) :
    IsPile (v.markFrom next).1 ls ∧ ((v.markFrom next).1.isMerge = true →
      (v.markFrom next).1.mark = some next ∧ next < (v.markFrom next).2) := by
  cases h with
  | one flat =>
    obtain ⟨n, hn⟩ := marked v List.mem_cons_self
    rw [markFrom_of_mark hn]
    exact ⟨.one flat, fun h => absurd (flat.symm.trans h) Bool.false_ne_true⟩
  | @many p ls two =>
    have mark := new rfl
    refine ⟨?_, fun _ => ⟨(markFrom_of_no_mark mark next).1, lt_markFrom mark next⟩⟩
    have unmarked : ¬ p.isMarked = true := by
      rw [Provenance.isMarked, show p.mark = none from mark]
      exact Bool.false_ne_true
    rw [Value.markFrom, if_neg unmarked, markItems_of_marked marked]
    exact .many two

end Hocon.Value

namespace Hocon.Resolution

open Value

variable {g : Table} {start : Nat} {s : Setting} {k : Path} {K : Value} {c : Surroundings}
  {m m' : Memory} {ys : List Value} {x : Option Value} {T : List Value} {d v w : Value}
  {p : Provenance} {kind : MergeKind} {ls : List Value} {n i : Nat}

/-! ### Opening a layer -/

/-- The first mark that is free once what shows below a layer has marks. -/
def reserved (below : List Value) (next : Nat) : Nat :=
  match mergeLayers? below with
  | some w => (w.markFrom next).2
  | none => next

theorem ensures_reserve {below : List Value} {Q : Except Failure Nat → Memory → Prop}
    (h : Q (.ok m.next) { m with next := reserved below m.next }) :
    Ensures (reserve below) m Q := h

theorem le_reserved (below : List Value) (next : Nat) : next ≤ reserved below next := by
  unfold reserved
  split
  · exact le_markFrom _ _
  · exact Nat.le_refl _

/-- What a history shows once it has marks. -/
theorem exists_shown (history : History k T) (marked : ∀ d ∈ T, ∃ n, d.mark = some n)
    (base : Nat) : ∃ x, ((mergeLayers? T).map fun w => (w.markFrom base).1) = x
      ∧ (∀ u, x = some u → IsPile u T) ∧ (x = none → T = [])
      ∧ ∀ u ∈ x.toList.filter isMerge, u.mark = some base ∧ base < reserved T base := by
  by_cases present : T = []
  · subst present
    exact ⟨none, rfl, by rintro _ ⟨⟩, fun _ => rfl, List.forall_mem_nil _⟩
  · obtain ⟨v, hv, pile, new⟩ := history.exists_pile present
    obtain ⟨pile', fresh⟩ := pile.markFrom new marked base
    refine ⟨_, rfl, fun u hu => ?_, fun h => ?_, fun u hu => ?_⟩
    · rw [hv] at hu
      cases hu
      exact pile'
    · rw [hv] at h
      cases h
    · obtain ⟨hu, merge⟩ := List.mem_filter.1 hu
      rw [hv, Option.map_some, Option.toList_some, List.mem_singleton] at hu
      subst hu
      rw [reserved, hv]
      exact fresh merge

/-- A new merge is not open. -/
theorem showing?_of_fresh {next : Nat} (opens : ∀ o ∈ c.merges, o.node < next)
    (fresh : v.isMerge = true → v.mark = some next) : c.showing? v = none := by
  cases v with
  | merge q j ls =>
    rw [Surroundings.showing?, List.find?_eq_none.2 fun o ho same => ?_]
    · rfl
    · have eq : some o.node = some next := (beq_iff_eq.1 same).trans (fresh rfl)
      exact absurd (opens o ho) (Option.some.inj eq ▸ Nat.lt_irrefl _)
  | _ => rfl

/-- Opening a layer of the merge that shows, it shows the history below that layer. -/
theorem Outlook.opened (h : Outlook g start k K c m ys (some (merge p kind ls)) ls)
    (mark : p.mark = some n) (below : ls.drop i = d :: T) :
    ∃ x, Outlook g start k K (c.opened n i m.next) { m with next := reserved T m.next }
        (ys ++ [merge p kind ls]) x T
      ∧ Ground g start { m with next := reserved T m.next } (tower (ys ++ [merge p kind ls]) x) ls
      ∧ tower (ys ++ [merge p kind ls]) x
        = tower ys (some (merge p kind ls)) ++ x.toList.filter isMerge
      ∧ ∀ u ∈ x.toList.filter isMerge, u.mark = some m.next := by
  have suffix : T <:+ ls := (List.suffix_cons d T).trans (below ▸ List.drop_suffix i ls)
  have known (d : Value) (hd : d ∈ T) : d.Known g := h.ground.known d (suffix.subset hd)
  have history := h.history.of_suffix suffix
  obtain ⟨x, shown, pile, empty, fresh⟩ := exists_shown history
    (fun d hd => ((known d hd).exists_mark).imp fun _ => And.left) m.next
  have le := le_reserved T m.next
  have whole : tower (ys ++ [merge p kind ls]) x
      = tower ys (some (merge p kind ls)) ++ x.toList.filter isMerge := rfl
  have old (n : Nat) (u : Value) (hu : g n = some u) : n < m.next :=
    Nat.lt_of_lt_of_le (h.ground.table n u hu) h.ground.sane.start
  have inside : merge p kind ls ∈ tower ys (some (merge p kind ls)) :=
    List.mem_append_right _ (List.mem_singleton.2 rfl)
  have lt : n < m.next := by
    obtain ⟨i, mark', lt, -⟩ := h.ground.tower _ inside
    cases mark.symm.trans mark'
    exact lt
  have opens : ∀ o ∈ (c.opened n i m.next).merges, o.node < m.next :=
    List.forall_mem_cons.2 ⟨lt, h.opens⟩
  have ground : Ground g start { m with next := reserved T m.next }
      (tower (ys ++ [merge p kind ls]) x) ls := by
    refine { h.ground with sane := h.ground.sane.renew le, tower := fun y hy => ?_ }
    rw [whole] at hy
    rcases List.mem_append.1 hy with hy | hy
    · obtain ⟨n, mark, lt, waits, free⟩ := h.ground.tower y hy
      exact ⟨n, mark, Nat.lt_of_lt_of_le lt le, waits, free⟩
    · obtain ⟨mark, lt⟩ := fresh y hy
      refine ⟨_, mark, lt, fun u hu => absurd (old _ u hu) (Nat.lt_irrefl _), fun d hd owns => ?_⟩
      obtain ⟨u, hu, -⟩ := owns.entry (h.ground.known d hd)
      exact Nat.lt_irrefl _ (old _ u hu)
  refine ⟨x, ?_, ground, whole, fun u hu => (fresh u hu).1⟩
  refine ⟨?_, pile, empty, fun o ho => Nat.lt_of_lt_of_le (opens o ho) le, history,
    fun d hd => h.wellFormed d (suffix.subset hd),
    fun d hd => h.available d (suffix.subset hd), ground.of_suffix suffix⟩
  · refine h.shows.opened mark i m.next ?_ fun u hu => showing?_of_fresh opens fun merge => ?_
    · rw [← List.tail_drop, below]
      exact shown
    · exact (fresh u (List.mem_filter.2 ⟨by rw [hu]; exact List.mem_singleton.2 rfl, merge⟩)).1

theorem Memory.Spares.of_renewed {touched touched' : Nat → Prop} {next : Nat}
    (h : Spares g touched { m with next } m') (le : m.next ≤ next)
    (sub : ∀ n < m.next, touched n → touched' n) : m.Spares g touched' m' where
  le := Nat.le_trans le h.le
  same n lt waits spared := h.same n (Nat.lt_of_lt_of_le lt le) waits (mt (sub n lt) spared)

theorem Ground.of_append {ms ms' : List Value} (h : Ground g start m (ms ++ ms') T) :
    Ground g start m ms T :=
  { h with tower := fun y hy => h.tower y (List.mem_append_left _ hy) }

theorem Idle.of_append {ms ms' : List Value} (h : Idle m (ms ++ ms') T) : Idle m ms T :=
  { h with tower := fun y hy => h.tower y (List.mem_append_left _ hy) }

theorem Shows.mem (h : Shows c v ys x) (present : ys ≠ []) : v ∈ ys := by
  cases h with
  | here => exact absurd rfl present
  | gone | deeper => exact List.mem_cons_self

/-- A definition is resolved with its layer open. -/
theorem comes_layer (site : Site s k K g start)
    (outlook : Outlook g start k K c m ys (some (merge p kind ls)) ls) (mark : p.mark = some n)
    (below : ls.drop i = d :: T) (looks : LooksBack k d) (viewed : Viewed s g start k K T)
    (idle : Idle m (tower ys (some (merge p kind ls))) (d :: T)) :
    Comes (resolve s (c.opened n i m.next) d none) { m with next := reserved T m.next }
      ((comesTo T).bind fun earlier => revise earlier d)
      (Resolved g start K m (tower ys (some (merge p kind ls))) T d) := by
  obtain ⟨x, inner, ground, whole, fresh⟩ := outlook.opened mark below
  have suffix : d :: T <:+ ls := below ▸ List.drop_suffix i ls
  have hd : d ∈ ls := suffix.subset List.mem_cons_self
  have poised : Poised k (c.opened n i m.next) d :=
    ⟨looks, outlook.wellFormed d hd, outlook.available d hd⟩
  have le := le_reserved T m.next
  have free (u : Value) (hu : u ∈ x.toList.filter isMerge) : m.recall? u none = none := by
    rw [Memory.recall?_none, fresh u hu]
    exact outlook.ground.sane.find?_eq_none (Nat.le_refl _)
  have idle' : Idle { m with next := reserved T m.next } (tower (ys ++ [merge p kind ls]) x)
      (d :: T) := by
    refine ⟨fun y hy => ?_, idle.definitions⟩
    rw [whole] at hy
    exact (List.mem_append.1 hy).elim (idle.tower y) (free y)
  refine (comes_definition site poised viewed inner (List.mem_append_left _ (inner.shows.mem (by simp)))
    (ground.of_suffix suffix) idle').mono fun b r m' _ resolved => ?_
  obtain ⟨ground, spares, made⟩ := resolved
  rw [whole] at ground spares made
  refine ⟨ground.of_append, spares.of_renewed le fun i lt touched => ?_, ?_⟩
  · rcases touched with ⟨y, hy, mark⟩ | touched
    · rcases List.mem_append.1 hy with hy | hy
      · exact .inl ⟨y, hy, mark⟩
      · cases mark.symm.trans (fresh y hy)
        exact absurd lt (Nat.lt_irrefl _)
    · exact .inr touched
  · rcases made with ⟨rfl, rfl, gone, idle⟩ | ⟨v, w, rfl, rfl, same, recalled, below⟩
    · exact .inl ⟨rfl, rfl, gone, idle.of_append⟩
    · exact .inr ⟨v, w, rfl, rfl, same, recalled,
        below.imp_left fun ⟨gone, idle⟩ => ⟨gone, idle.of_append⟩⟩

/-! ### Layers -/

section Layers

variable {whole : Value} {a : Option Value} {L : List Value}
  {P Q : Except Failure (Option Value) → Memory → Prop}

/-- A layer that waits is resolved with itself open, and then the layers below are. -/
theorem ensures_layer (waits : d.isPending = true) (flat : d.isMerge = false)
    (head : Ensures (resolve s (c.opened n i m.next) d none) { m with next := reserved L m.next } P)
    (tail : ∀ r m', P (.ok r) m' →
      Ensures (resolveLayers s c whole (some n) none (i + 1) (Entries.overlay a r) L) m' Q)
    (error : ∀ e m', P (.error e) m' → Q (.error e) m') :
    Ensures (resolveLayers s c whole (some n) none i a (d :: L)) m Q := by
  rw [resolveLayers]
  swap
  · rintro p k ls rfl
    cases flat
  simp only [Bool.false_eq_true, if_false, waits, if_true]
  refine Ensures.bind (ensures_reserve (Q := fun out m' => out = .ok m.next
    ∧ m' = { m with next := reserved L m.next }) ⟨rfl, rfl⟩) (fun base m' h => ?_) fun e m' h => by
      cases h.1
  obtain ⟨h, rfl⟩ := h
  cases h
  refine head.bind (fun r m' hr => ?_) error
  have rest := tail r m' hr
  cases a <;> cases r <;> exact rest

/-- Layers that come to nothing add nothing. -/
theorem ensures_layers_idle (site : Site s k K g start)
    (outlook : Outlook g start k K c m ys (some (merge p kind ls)) ls) (mark : p.mark = some n)
    (below : ls.drop i = L) (viewed : ∀ T, T <:+ L → Viewed s g start k K T)
    (gone : comesTo L = some none) (idle : Idle m (tower ys (some (merge p kind ls))) L) :
    Ensures (resolveLayers s c whole (some n) none i a L) m fun out m' =>
      out = .ok a ∧ m'.Sane g start
        ∧ m.Spares g (Touched (tower ys (some (merge p kind ls))) L) m'
        ∧ Idle m' (tower ys (some (merge p kind ls))) L := by
  induction L generalizing i m with
  | nil =>
    rw [resolveLayers]
    exact Ensures.pure ⟨rfl, outlook.ground.sane, .refl m, idle⟩
  | cons d L ih =>
    have suffix : d :: L <:+ ls := below ▸ List.drop_suffix i ls
    have history := outlook.history.of_suffix suffix
    obtain ⟨looks, -, -, gone', revised⟩ := history.of_comesTo_eq_none
      (fun d hd => outlook.wellFormed d (suffix.subset hd)) gone
    have head := comes_layer site outlook mark below looks (viewed L (List.suffix_cons d L)) idle
    rw [gone', Option.bind_some, revised] at head
    refine ensures_layer looks.isPending looks.isMerge head (fun r m' hr => ?_) fun e m' he => ?_
    · obtain ⟨r', hr, ground, spares, ⟨-, rfl, -, idle'⟩ | ⟨_, _, h, -⟩⟩ := hr
      · cases hr
        rw [Entries.overlay_none_right]
        refine (ih (outlook.later ground.sane spares.le) ?_ (fun T hT =>
          viewed T (hT.trans (List.suffix_cons d L))) gone' idle'.of_cons).mono
          fun out m'' hout => ?_
        · rw [← List.tail_drop, below]
          rfl
        · obtain ⟨rfl, sane, spares', idle''⟩ := hout
          refine ⟨rfl, sane, spares.trans (spares'.mono fun _ _ touched =>
            touched.mono fun _ => List.mem_cons_of_mem _), idle'.cons ground spares' idle''⟩
      · cases h
    · obtain ⟨_, h, -⟩ := he
      cases h

/-- A layer below a value that hides it is resolved without an effect: it has a result already, or
it sees what there is now for `K`. -/
theorem ensures_done (site : Site s k K g start) (ground : Ground g start m ms (d :: L))
    (open_ : K ∈ ms) (poised : Poised k c d) (single : w.Single) (recalled : m.recall? K none = some w)
    (done : Done m (d :: L)) :
    Ensures (resolve s c d none) m fun out m' => ∃ r w, out = .ok (some r) ∧ m'.Sane g start
      ∧ m.Spares g (Touched ms (d :: L)) m' ∧ w.Single ∧ m'.recall? K none = some w
      ∧ Done m' (d :: L) := by
  have waits := poised.looks.isPending
  rcases done d List.mem_cons_self waits with ⟨r, hr⟩ | ⟨bare, free⟩
  · exact ensures_resolve_recalled hr ⟨r, w, rfl, ground.sane, .refl m, single, recalled, done⟩
  · have done := done.of_cons
    have seen : Seen g start K m ms L d w m := by
      refine ⟨ground, .refl m, single, open_, recalled, done, fun x hx waits => .inl ?_⟩
      obtain ⟨n, mark, -⟩ := ((ground.known d List.mem_cons_self).pieces x hx).exists_mark
      rw [Memory.recall?_none, mark]
      exact free n ⟨x, .inr hx, waits, mark⟩
    obtain ⟨u, hu⟩ := exists_revise_of_isBare poised.looks bare single
    have run := comes_definition_known site poised free seen
    rw [hu] at run
    refine Ensures.mono run fun out m' hout => ?_
    obtain ⟨r, rfl, ⟨h, -⟩ | ⟨v, w', -, rfl, -, ⟨w, seen⟩, recalled⟩⟩ := hout
    · cases h
    · refine ⟨w', w, rfl, seen.ground.sane, seen.spares, seen.single, seen.whole, ?_⟩
      intro x hx waits
      rcases List.mem_cons.1 hx with rfl | hx
      · exact .inl ⟨w', recalled⟩
      · exact seen.done x hx waits

/-- Layers below a value that hides them are resolved without an effect. -/
theorem ensures_layers_done (site : Site s k K g start) (ground : Ground g start m ms L)
    (open_ : K ∈ ms) (history : History k L) (wf : ∀ d ∈ L, d.WellFormed .spelled)
    (available : ∀ d ∈ L, ∀ p r n, reference p r ∈ d.pieces → p.mark = some n → n ∈ c.available)
    (single : w.Single) (recalled : m.recall? K none = some w) (done : Done m L)
    (hides : v.ignoresFallbacks = true) :
    Ensures (resolveLayers s c whole (some n) none i (some v) L) m fun out m' =>
      out = .ok (some v) ∧ m'.Sane g start ∧ m.Spares g (Touched ms L) m' ∧ Done m' L := by
  have hidden (r : Value) : Entries.overlay (some v) (some r) = some v := by
    rw [Entries.overlay_some, withFallback_of_ignoresFallbacks hides]
  induction L generalizing i m w with
  | nil =>
    rw [resolveLayers]
    exact Ensures.pure ⟨rfl, ground.sane, .refl m, done⟩
  | cons d L ih =>
    cases history with
    | base resolved notObject =>
      have waits := isPending_of_isResolved resolved
      rw [resolveLayers]
      swap
      · rintro p k ls rfl
        cases waits
      simp only [Bool.false_eq_true, if_false, waits, pure_bind]
      refine Ensures.bind (ensures_resolved (ground.known d List.mem_cons_self) ground.table
        resolved ground.sane) (fun r m' hr => ?_) fun e m' he => by cases he.1
      obtain ⟨hr, sane, spares, -⟩ := hr
      cases hr
      rw [resolveLayers]
      refine Ensures.pure ⟨congrArg Except.ok (hidden d : _), sane, spares.mono fun _ _ => False.elim, fun x hx h => ?_⟩
      cases List.mem_singleton.1 hx
      cases waits.symm.trans h
    | cons looks history =>
      have poised : Poised k (c.opened n i m.next) d :=
        ⟨looks, wf d List.mem_cons_self, available d List.mem_cons_self⟩
      have le := le_reserved L m.next
      refine ensures_layer looks.isPending looks.isMerge
        (ensures_done site (ground.later (ground.sane.renew le) le) open_ poised single recalled done)
        (fun r m' hr => ?_) fun e m' he => ?_
      · obtain ⟨r, w, hr, sane, spares, single, recalled, done⟩ := hr
        cases hr
        rw [hidden]
        have le' := Nat.le_trans le spares.le
        refine (ih (ground.of_cons.later sane le') history
          (fun d hd => wf d (List.mem_cons_of_mem _ hd))
          (fun d hd => available d (List.mem_cons_of_mem _ hd)) single recalled
          done.of_cons).mono fun out m'' hout => ?_
        obtain ⟨rfl, sane', spares', done'⟩ := hout
        refine ⟨rfl, sane', ?_, done.head.cons (ground.later sane le') spares' done'⟩
        exact (spares.of_renewed le fun _ _ => id).trans (spares'.mono fun _ _ touched =>
          touched.mono fun _ => List.mem_cons_of_mem _)
      · obtain ⟨_, _, h, -⟩ := he
        cases h

end Layers

/-! ### What shows is resolved -/

theorem Shows.eq_or_mem (h : Shows c v ys x) : x = some v ∧ ys = [] ∨ ∃ zs, ys = v :: zs := by
  cases h with
  | here => exact .inl ⟨rfl, rfl⟩
  | gone => exact .inr ⟨[], rfl⟩
  | deeper => exact .inr ⟨_, rfl⟩

theorem Shows.mem_tower {q : Provenance} (h : Shows c v ys (some (merge q kind ls))) :
    v ∈ tower ys (some (merge q kind ls)) := by
  rcases h.eq_or_mem with ⟨e, -⟩ | ⟨zs, rfl⟩
  · exact List.mem_append_right _ (List.mem_singleton.2 (Option.some.inj e).symm)
  · exact List.mem_append_left _ List.mem_cons_self

/-- What holds of the memory once what `K` shows has been resolved to `w`. -/
theorem Outlook.concludes {u : Value} (h : Outlook g start k K c m ys (some u) T)
    (ground : Ground g start m' (tower ys (some u)) T) (recalled : m'.recall? u none = some w) :
    (m'.rememberAll ys w).Sane g start
      ∧ m'.Spares g (Touched (tower ys (some u)) T) (m'.rememberAll ys w)
      ∧ (m'.rememberAll ys w).recall? K none = some w
      ∧ (Done m' T → Done (m'.rememberAll ys w) T) := by
  have all (zs : List Value) (sub : ∀ z ∈ zs, z ∈ tower ys (some u)) :
      (m'.rememberAll zs w).Sane g start
        ∧ m'.Spares g (fun n => ∃ y ∈ tower ys (some u), y.mark = some n) (m'.rememberAll zs w)
        ∧ (m'.rememberAll zs w).next = m'.next := by
    induction zs with
    | nil => exact ⟨ground.sane, .refl m', rfl⟩
    | cons z zs ih =>
      obtain ⟨hz, hzs⟩ := List.forall_mem_cons.1 sub
      obtain ⟨sane, spares, next⟩ := ih hzs
      obtain ⟨n, mark, lt, waits, -⟩ := ground.tower z hz
      refine ⟨sane.remember mark (next ▸ lt) (fun v hv waits' => ?_) none,
        spares.remember mark fun _ _ => ⟨z, hz, mark⟩, (Memory.next_remember _ _ _ _).trans next⟩
      cases (waits v hv).symm.trans waits'
  obtain ⟨sane, spares, -⟩ := all ys fun y hy => List.mem_append_left _ hy
  refine ⟨sane, spares.mono fun _ _ => .inl, ?_, fun done => ?_⟩
  · rcases h.shows.eq_or_mem with ⟨e, rfl⟩ | ⟨zs, rfl⟩
    · cases e
      exact recalled
    · obtain ⟨n, mark, -⟩ := ground.tower K (List.mem_append_left _ List.mem_cons_self)
      exact Memory.recall?_remember mark
  · refine done.spared ground spares fun d hd n owns hn => ?_
    obtain ⟨y, hy, mark⟩ := hn
    obtain ⟨i, mark', -, -, free⟩ := ground.tower y hy
    cases mark.symm.trans mark'
    exact free d hd owns

/-- What shows has been resolved to a value. -/
theorem Outlook.passes {u : Value} (h : Outlook g start k K c m ys (some u) T)
    (comes : comesTo T = some (some v)) (same : StandsFor v w)
    (ground : Ground g start m' (tower ys (some u)) T)
    (spares : m.Spares g (Touched (tower ys (some u)) T) m') (recalled : m'.recall? u none = some w)
    (done : Done m' T) :
    Passes ys (Verdict g start K m (tower ys (some u)) T) (.ok (some w)) m' := by
  obtain ⟨sane, spares', whole, still⟩ := h.concludes ground recalled
  refine ⟨same.right.resolved, ?_⟩
  rw [Verdict, comes]
  exact ⟨w, rfl, same, sane, spares.trans spares', whole, still done⟩

/-- Nothing shows in the end. -/
theorem viewed_nil : Viewed s g start k K [] := by
  intro c m ys x outlook idle
  cases x with
  | none =>
    refine ensures_gone outlook.shows (fun y hy => idle.tower y (List.mem_append_left _ hy)) ?_
    exact ⟨.inr ⟨rfl, _, rfl⟩, outlook.ground.sane, .refl m, idle⟩
  | some u =>
    obtain pile := outlook.pile u rfl
    cases pile with
    | many two => simp at two

/-- A value that needs nothing shows. -/
theorem viewed_base (resolved : v.isResolved = true) (notObject : v.fields? = none) :
    Viewed s g start k K [v] := by
  intro c m ys x outlook idle
  have waits := isPending_of_isResolved resolved
  cases x with
  | none => cases outlook.empty rfl
  | some u =>
    obtain rfl : u = v := by
      cases outlook.pile u rfl with
      | one => rfl
      | many two => simp at two
    refine ensures_through outlook.shows (fun y hy => idle.tower y (List.mem_append_left _ hy)) ?_
    refine (ensures_resolved (outlook.ground.known u List.mem_cons_self) outlook.ground.table resolved
      outlook.ground.sane).mono fun out m' hout => ?_
    obtain ⟨rfl, sane, spares, recalled⟩ := hout
    have ground := outlook.ground.later sane spares.le
    have single : u.Single := ⟨outlook.wellFormed u List.mem_cons_self, resolved, notObject⟩
    refine outlook.passes (joined_base waits) ⟨single, single, fun _ => rfl⟩ ground
      (spares.mono fun _ _ => False.elim) recalled fun x hx waits' => ?_
    cases List.mem_singleton.1 hx
    cases waits.symm.trans waits'

/-! ### A definition that sees itself -/

theorem ensures_items_blocked {P : Memory → Prop} {pre post : List Value}
    (passed : ∀ x ∈ pre, ∀ m, P m → Ensures (resolve s c x none) m fun out m' =>
      ((∃ r, out = .ok r) ∨ ∃ t, out = .error (.cycle t)) ∧ P m')
    (blocked : ∀ m, P m → Ensures (resolve s c v none) m fun out m' =>
      (∃ t, out = .error (.cycle t)) ∧ P m') (hm : P m) :
    Ensures (resolveItems s c (pre ++ v :: post)) m fun out m' =>
      (∃ t, out = .error (.cycle t)) ∧ P m' := by
  induction pre generalizing m with
  | nil =>
    rw [List.nil_append, resolveItems]
    refine (blocked m hm).bind (fun r m' h => ?_) fun e m' h => ?_
    · obtain ⟨⟨t, h⟩, -⟩ := h
      cases h
    · obtain ⟨⟨t, h⟩, hm'⟩ := h
      cases h
      exact ⟨⟨t, rfl⟩, hm'⟩
  | cons x pre ih =>
    obtain ⟨hx, hpre⟩ := List.forall_mem_cons.1 passed
    rw [List.cons_append, resolveItems]
    refine (hx m hm).bind (fun r m' h => ?_) fun e m' h => ?_
    · refine (ih hpre h.2).bind (fun rs m'' h => ?_) fun e m'' h => ?_
      · obtain ⟨⟨t, h⟩, -⟩ := h
        cases h
      · obtain ⟨⟨t, h⟩, hm'⟩ := h
        cases h
        exact ⟨⟨t, rfl⟩, hm'⟩
    · obtain ⟨⟨r, h⟩ | ⟨t, h⟩, hm'⟩ := h <;> cases h
      exact ⟨⟨t, rfl⟩, hm'⟩

/-- A reference that is being looked up is a cycle. -/
theorem ensures_unavailable {r : Reference} {Q : Except Failure (Option Value) → Memory → Prop}
    (mark : p.mark = some n) (free : m.find? n none = none) (unavailable : n ∉ c.available)
    (h : Q (.error (.cycle c.trace)) m) : Ensures (resolve s c (reference p r) none) m Q := by
  refine ensures_resolve ?_ rfl ?_
  · rw [Memory.recall?_none]
    simp only [Value.mark, prov, mark, Option.bind_some, free]
  · rw [resolveNode]
    simp only [mark, dif_neg unavailable]
    exact h

/-- A definition that sees itself is a cycle if one of its references is being looked up, unless a
mandatory one comes first. -/
theorem ensures_blocked (site : Site s k K g start) {m₀ : Memory} (looks : LooksBack k d)
    (shows : Shows c K ys (some d)) {pre post : List Value} {r : Reference}
    (split : d.pieces = pre ++ reference p r :: post) (mark : p.mark = some n)
    (unavailable : n ∉ c.available)
    (optional : ∀ q t, reference q t ∈ pre → t.target.optional = true)
    (blank : Blank g start m₀ (tower ys (some d)) [] d m) :
    Ensures (resolve s c K none) m fun out m' =>
      (∃ t, out = .error (.cycle t)) ∧ Blank g start m₀ (tower ys (some d)) [] d m' := by
  induction size : c.available.length using Nat.strongRecOn
    generalizing c m pre post p r n with
  | _ size ih =>
    have known := blank.ground.known d List.mem_cons_self
    -- whatever is looked up now, its marks are idle
    have idle {q : Provenance} {t : Reference} (hx : reference q t ∈ d.pieces) :
        ∃ i, q.mark = some i ∧ ∀ m, Blank g start m₀ (tower ys (some d)) [] d m →
          m.find? i none = none := by
      obtain ⟨i, mark, -⟩ := (known.pieces _ hx).exists_mark
      exact ⟨i, mark, fun m blank => blank.idle.definitions d List.mem_cons_self i
        ⟨_, .inr hx, rfl, mark⟩⟩
    have blocked (m : Memory) (blank : Blank g start m₀ (tower ys (some d)) [] d m) :
        Ensures (resolve s c (reference p r) none) m fun out m' =>
          (∃ t, out = .error (.cycle t)) ∧ Blank g start m₀ (tower ys (some d)) [] d m' := by
      obtain ⟨i, mark', free⟩ := idle (split ▸ List.mem_append_right pre List.mem_cons_self)
      cases mark.symm.trans mark'
      exact ensures_unavailable mark (free m blank) unavailable ⟨⟨_, rfl⟩, blank⟩
    have passed (x : Value) (hx : x ∈ pre) (m : Memory)
        (blank : Blank g start m₀ (tower ys (some d)) [] d m) :
        Ensures (resolve s c x none) m fun out m' =>
          ((∃ r, out = .ok r) ∨ ∃ t, out = .error (.cycle t))
            ∧ Blank g start m₀ (tower ys (some d)) [] d m' := by
      have mem : x ∈ d.pieces := split ▸ List.mem_append_left _ hx
      cases waits : x.isPending with
      | false =>
        obtain ⟨resolved, -⟩ := (looks.pieces x mem).isResolved waits
        refine (ensures_resolved (known.pieces x mem) blank.ground.table resolved
          blank.ground.sane).mono fun out m' hout => ?_
        exact ⟨.inl ⟨_, hout.1⟩, blank.still hout.2.1 hout.2.2.1⟩
      | true =>
        obtain ⟨q, t, rfl, target⟩ := (looks.pieces x mem).of_isPending waits
        obtain ⟨i, mark', free⟩ := idle mem
        by_cases available : i ∈ c.available
        · refine ensures_reference site mark' target (free m blank) available blank.ground.sane
            fun m' sane spares => ?_
          obtain ⟨pre', post', e⟩ := List.append_of_mem hx
          have split' : d.pieces = pre' ++ reference q t :: (post' ++ reference p r :: post) := by
            rw [split, e, List.append_assoc, List.cons_append]
          have shows' : Shows (c.within i (c.trace ++ [t.target])) K ys (some d) := shows.congr rfl
          have lt := Surroundings.available_within_lt available (c.trace ++ [t.target])
          have gone : i ∉ (c.within i (c.trace ++ [t.target])).available := fun h =>
            absurd (List.mem_filter.1 h).2 (by simp)
          refine (ih _ (size ▸ lt) shows' split' mark' gone (fun q t ht => ?_)
            (blank.still sane spares) rfl).mono fun out m'' hout => ?_
          · exact optional q t (e ▸ List.mem_append_left _ ht)
          · refine .of_vanished (.inr hout.1) (fun _ => ⟨.inl ⟨_, rfl⟩, hout.2⟩) fun mandatory => ?_
            cases (optional q t hx).symm.trans mandatory
        · exact ensures_unavailable mark' (free m blank) available ⟨.inr ⟨_, rfl⟩, blank⟩
    refine ensures_through shows (fun y hy => blank.idle.tower y (List.mem_append_left _ hy)) ?_
    -- the cycle goes all the way up
    have up {out : Except Failure (Option Value)} {m' : Memory}
        (h : (∃ t, out = .error (.cycle t)) ∧ Blank g start m₀ (tower ys (some d)) [] d m') :
        Passes ys (fun out m' => (∃ t, out = .error (.cycle t))
          ∧ Blank g start m₀ (tower ys (some d)) [] d m') out m' := by
      obtain ⟨⟨t, rfl⟩, blank⟩ := h
      exact ⟨⟨t, rfl⟩, blank⟩
    rcases looks.reference_or_concat with ⟨q, t, rfl, -⟩ | ⟨q, ps, rfl⟩
    · have mem : reference p r ∈ [reference q t] := by
        rw [← show (reference q t).pieces = [reference q t] from rfl, split]
        exact List.mem_append_right pre List.mem_cons_self
      cases List.mem_singleton.1 mem
      exact (blocked m blank).mono fun _ _ => up
    · obtain ⟨i, mark', -⟩ := known.exists_mark
      refine ensures_resolve ?_ rfl ?_
      · rw [Memory.recall?_none, mark']
        exact blank.idle.definitions _ List.mem_cons_self i ⟨_, .inl rfl, rfl, mark'⟩
      · obtain rfl : ps = pre ++ reference p r :: post := split
        rw [resolveNode]
        refine (ensures_items_blocked passed blocked blank).bind (fun rs m' h => ?_) fun e m' h => ?_
        · obtain ⟨⟨t, h⟩, -⟩ := h
          cases h
        · obtain ⟨⟨t, h⟩, blank⟩ := h
          cases h
          exact ⟨⟨t, rfl⟩, blank⟩

/-- A definition that looks back at nothing sees itself. -/
theorem viewed_single (site : Site s k K g start) (looks : LooksBack k d) :
    Viewed s g start k K [d] := by
  intro c m ys x outlook idle
  cases x with
  | none => cases outlook.empty rfl
  | some u =>
    obtain rfl : u = d := by
      cases outlook.pile u rfl with
      | one => rfl
      | many two => simp at two
    have poised : Poised k c u :=
      ⟨looks, outlook.wellFormed u List.mem_cons_self, outlook.available u List.mem_cons_self⟩
    have blank : Blank g start m (tower ys (some u)) [] u m := ⟨outlook.ground, .refl m, idle⟩
    refine ensures_through outlook.shows (fun y hy => idle.tower y (List.mem_append_left _ hy)) ?_
    have run : Comes (resolve s c u none) m (comesTo [u])
        (Resolved g start K m (tower ys (some u)) [] u) := by
      refine comes_definition_blank poised rfl blank fun pre p r post split optional m' blank => ?_
      -- looking it up leads back to it
      have mem : reference p r ∈ u.pieces := split ▸ List.mem_append_right pre List.mem_cons_self
      obtain ⟨n, mark, owns, -, target⟩ := poised.owns (blank.ground.known u List.mem_cons_self) mem
      refine ensures_reference site mark target
        (blank.idle.definitions u List.mem_cons_self n owns) (poised.available p r n mem mark)
        blank.ground.sane fun m'' sane spares => ?_
      have shows : Shows (c.within n (c.trace ++ [r.target])) K ys (some u) :=
        outlook.shows.congr rfl
      have gone : n ∉ (c.within n (c.trace ++ [r.target])).available := fun h =>
        absurd (List.mem_filter.1 h).2 (by simp)
      exact (ensures_blocked site looks shows split mark gone optional (blank.still sane spares)).mono
        fun out _ hout => .of_vanished_if (.inr hout.1) hout.2
    refine Ensures.mono run fun out m' hout => ?_
    cases comes : comesTo [u] with
    | none =>
      rw [comes] at hout
      obtain ⟨e, rfl⟩ := hout
      show Verdict _ _ _ _ _ _ _ _
      rw [Verdict, comes]
      exact ⟨e, rfl⟩
    | some b =>
      rw [comes] at hout
      obtain ⟨r, rfl, ground, spares, ⟨rfl, rfl, -, idle⟩ | ⟨v, w, rfl, rfl, same, recalled, -⟩⟩ := hout
      · show Verdict _ _ _ _ _ _ _ _
        rw [Verdict, comes]
        exact ⟨.inl rfl, ground.sane, spares, idle⟩
      · refine outlook.passes comes same ground spares recalled fun x hx _ => ?_
        cases List.mem_singleton.1 hx
        exact .inl ⟨w, recalled⟩

/-! ### A merge of definitions -/

/-- The topmost definition sees what the others come to, and those below it are hidden. -/
theorem comes_layers (site : Site s k K g start) (looks : LooksBack k d)
    (outlook : Outlook g start k K c m ys (some (merge p kind (d :: T))) (d :: T))
    (mark : p.mark = some n) (below : ∀ S, S <:+ T → Viewed s g start k K S)
    (idle : Idle m (tower ys (some (merge p kind (d :: T)))) (d :: T)) {whole : Value} :
    Comes (resolveLayers s c whole (some n) none 0 none (d :: T)) m (comesTo (d :: T))
      fun b r m' => Ground g start m' (tower ys (some (merge p kind (d :: T)))) (d :: T)
        ∧ m.Spares g (Touched (tower ys (some (merge p kind (d :: T)))) (d :: T)) m'
        ∧ (b = none ∧ r = none ∧ Idle m' (tower ys (some (merge p kind (d :: T)))) (d :: T)
          ∨ ∃ v w, b = some v ∧ r = some w ∧ StandsFor v w ∧ Done m' (d :: T)) := by
  have sub {n : Nat} (touched : Touched (tower ys (some (merge p kind (d :: T)))) T n) :
      Touched (tower ys (some (merge p kind (d :: T)))) (d :: T) n :=
    touched.mono fun _ => List.mem_cons_of_mem _
  have history := outlook.history.of_suffix (List.suffix_cons d T)
  have wf (x : Value) (hx : x ∈ T) := outlook.wellFormed x (List.mem_cons_of_mem d hx)
  refine ensures_layer looks.isPending looks.isMerge
    (comes_layer site outlook mark rfl looks (below T List.suffix_rfl) idle) (fun r m' hr => ?_)
    fun e m' he => ?_
  · rw [comesTo]
    cases comes : (comesTo T).bind fun earlier => revise earlier d with
    | none =>
      rw [comes] at hr
      obtain ⟨_, h⟩ := hr
      cases h
    | some b =>
      rw [comes] at hr
      obtain ⟨r', h, ground, spares, made⟩ := hr
      cases h
      have idling (gone : comesTo T = some none)
          (idle : Idle m' (tower ys (some (merge p kind (d :: T)))) T) (a : Option Value) :
          Ensures (resolveLayers s c whole (some n) none 1 a T) m' fun out m'' =>
            out = .ok a ∧ m''.Sane g start
              ∧ m'.Spares g (Touched (tower ys (some (merge p kind (d :: T)))) T) m''
              ∧ Idle m'' (tower ys (some (merge p kind (d :: T)))) T :=
        ensures_layers_idle site (outlook.later ground.sane spares.le) mark rfl below gone idle
      rcases made with ⟨rfl, rfl, gone, idle'⟩ | ⟨v, w, rfl, rfl, same, recalled, made⟩
      · refine (idling gone idle'.of_cons _).mono fun out m'' hout => ?_
        obtain ⟨rfl, sane, spares', idle''⟩ := hout
        exact ⟨_, rfl, ground.later sane spares'.le, spares.trans (spares'.mono fun _ _ => sub),
          .inl ⟨rfl, rfl, idle'.cons ground spares' idle''⟩⟩
      · have rest : Ensures (resolveLayers s c whole (some n) none 1 (some w) T) m' fun out m'' =>
            out = .ok (some w) ∧ m''.Sane g start
              ∧ m'.Spares g (Touched (tower ys (some (merge p kind (d :: T)))) T) m''
              ∧ Done m'' T := by
          rcases made with ⟨gone, idle'⟩ | ⟨-, done, u, single, recalled'⟩
          · refine (idling gone idle' _).mono fun out m'' hout => ?_
            exact ⟨hout.1, hout.2.1, hout.2.2.1, hout.2.2.2.done history wf gone⟩
          · have available (x : Value) (hx : x ∈ T) :=
              outlook.available x (List.mem_cons_of_mem d hx)
            exact ensures_layers_done site ground.of_cons outlook.shows.mem_tower history wf available
              single recalled' done same.right.ignoresFallbacks
        refine rest.mono fun out m'' hout => ?_
        obtain ⟨rfl, sane, spares', done⟩ := hout
        have head : Done m' [d] := List.forall_mem_singleton.2 fun _ => .inl ⟨w, recalled⟩
        exact ⟨_, rfl, ground.later sane spares'.le, spares.trans (spares'.mono fun _ _ => sub),
          .inr ⟨v, w, rfl, rfl, same, head.cons ground spares' done⟩⟩
  · rw [comesTo]
    cases comes : (comesTo T).bind fun earlier => revise earlier d with
    | none =>
      rw [comes] at he
      obtain ⟨e', h⟩ := he
      cases h
      exact ⟨e', rfl⟩
    | some b =>
      rw [comes] at he
      obtain ⟨_, h, -⟩ := he
      cases h

/-- The merge that shows has been resolved to a value, which is kept as a new node. -/
theorem Outlook.keeps (outlook : Outlook g start k K c m ys (some (merge p kind ls)) ls)
    (comes : comesTo ls = some (some v)) (same : StandsFor v w)
    (ground : Ground g start m' (tower ys (some (merge p kind ls))) ls)
    (spares : m.Spares g (Touched (tower ys (some (merge p kind ls))) ls) m') (done : Done m' ls) :
    Keeps s (merge p kind ls) none
      (Passes ys (Verdict g start K m (tower ys (some (merge p kind ls))) ls))
      (.ok (some (w.markFrom m'.next).1)) { m' with next := (w.markFrom m'.next).2 } := by
  have inside : merge p kind ls ∈ tower ys (some (merge p kind ls)) :=
    List.mem_append_right _ (List.mem_singleton.2 rfl)
  obtain ⟨n, mark, lt, waits, free⟩ := ground.tower _ inside
  have le := le_markFrom w m'.next
  have same' := same.trans (.of_alike same.right (alike_markFrom w m'.next))
  have sane := (ground.sane.renew le).remember (w := (w.markFrom m'.next).1) mark
    (Nat.lt_of_lt_of_le lt le) (fun u hu h => by cases (waits u hu).symm.trans h) none
  have kept : m'.Spares g (fun i => i = n) (({ m' with next := (w.markFrom m'.next).2 } :
      Memory).remember (merge p kind ls) none (w.markFrom m'.next).1) :=
    ((Memory.Spares.refl m').renew le).remember mark fun _ _ => rfl
  refine .resolved same'.right.resolved (outlook.passes comes same' (ground.later sane kept.le)
    (spares.trans (kept.mono fun i _ e => ?_)) (Memory.recall?_remember mark)
    (done.spared ground kept fun d hd i owns e => ?_))
  · exact .inl ⟨_, inside, e ▸ mark⟩
  · exact free d hd (e ▸ owns)

/-- Where a merge of definitions shows, it is resolved to what they come to. -/
theorem viewed_merge (site : Site s k K g start) (looks : LooksBack k d) (present : T ≠ [])
    (below : ∀ S, S <:+ T → Viewed s g start k K S) : Viewed s g start k K (d :: T) := by
  intro c m ys x outlook idle
  cases x with
  | none => cases outlook.empty rfl
  | some u =>
    obtain ⟨p, rfl⟩ : ∃ p, u = merge p .value (d :: T) := by
      cases outlook.pile u rfl with
      | one => exact absurd rfl present
      | many => exact ⟨_, rfl⟩
    have inside : merge p .value (d :: T) ∈ tower ys (some (merge p .value (d :: T))) :=
      List.mem_append_right _ (List.mem_singleton.2 rfl)
    obtain ⟨n, mark, -⟩ := outlook.ground.tower _ inside
    have mark : p.mark = some n := mark
    refine ensures_through outlook.shows (fun y hy => idle.tower y (List.mem_append_left _ hy)) ?_
    refine ensures_resolve (idle.tower _ inside) outlook.shows.shut ?_
    rw [resolveNode, mark]
    refine Ensures.bind (comes_layers site looks outlook mark below idle) (fun r m' hr => ?_)
      fun e m' he => ?_
    · cases comes : comesTo (d :: T) with
      | none =>
        rw [comes] at hr
        obtain ⟨_, h⟩ := hr
        cases h
      | some b =>
        rw [comes] at hr
        obtain ⟨r', h, ground, spares, made⟩ := hr
        cases h
        rcases made with ⟨rfl, rfl, idle'⟩ | ⟨v, w, rfl, rfl, same, done⟩
        · show Verdict _ _ _ _ _ _ _ _
          rw [Verdict, comes]
          exact ⟨.inl rfl, ground.sane, spares, idle'⟩
        · exact outlook.keeps comes same ground spares done
    · cases comes : comesTo (d :: T) with
      | none =>
        rw [comes] at he
        obtain ⟨e', h⟩ := he
        cases h
        show Verdict _ _ _ _ _ _ _ _
        rw [Verdict, comes]
        exact ⟨e', rfl⟩
      | some b =>
        rw [comes] at he
        obtain ⟨_, h, -⟩ := he
        cases h

/-- **Wherever a history shows, it is resolved to what it comes to.** -/
theorem viewed (site : Site s k K g start) (T : List Value) : Viewed s g start k K T := by
  have all : ∀ S, S <:+ T → Viewed s g start k K S := by
    induction T with
    | nil => exact fun S suffix => List.suffix_nil.1 suffix ▸ viewed_nil
    | cons d T ih =>
      intro S suffix
      rcases List.suffix_cons_iff.1 suffix with rfl | suffix
      · intro c m ys x outlook
        cases outlook.history with
        | base resolved notObject => exact viewed_base resolved notObject c m ys x outlook
        | cons looks =>
          by_cases present : T = []
          · subst present
            exact viewed_single site looks c m ys x outlook
          · exact viewed_merge site looks present ih c m ys x outlook
      · exact ih S suffix
  exact all T List.suffix_rfl

end Hocon.Resolution
