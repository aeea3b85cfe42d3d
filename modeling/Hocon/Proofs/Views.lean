import Hocon.Proofs.Revising

/-!
# Every definition sees the one before

While a layer of a merge is resolved, a reference to the key of the merge sees the layers below.
These are a merge of their own, which is resolved layer by layer with the same reference turning up
again and again, and what it comes to is remembered for the merge as a whole.  The memory is thus
true only for the layer at hand.

That this goes well is an induction on the layers (`Viewed`).  What is remembered at a layer is
nothing (`Idle`) or the right thing for all layers below (`Done`), with one exception: a definition
that comes to nothing leaves no trace, and it is resolved anew when the merge already has a result.
It then sees a value that is not meant for it.  No harm comes from that, since it lies below a value
that hides it.
-/

namespace Hocon.Value

/-- The marks of a definition and of its references. -/
def Owns (d : Value) (n : Nat) : Prop :=
  ∃ u, (u = d ∨ u ∈ d.pieces) ∧ u.isPending = true ∧ u.mark = some n

theorem Known.pieces {g : Table} {d : Value} (h : d.Known g) : ∀ x ∈ d.pieces, x.Known g := by
  intro x hx
  cases d with
  | concat p ps => exact h.parts x hx
  | _ => exact List.mem_singleton.1 hx ▸ h

theorem Owns.entry {g : Table} {d : Value} {n : Nat} (known : d.Known g) (h : d.Owns n) :
    ∃ u, g n = some u ∧ u.isPending = true := by
  obtain ⟨u, rfl | hu, waits, mark⟩ := h
  · exact ⟨u, known.entry mark, waits⟩
  · exact ⟨u, (known.pieces u hu).entry mark, waits⟩

end Hocon.Value

namespace Hocon.Resolution

open Value

variable {g : Table} {start : Nat} {s : Setting} {k : Path} {K : Value} {c : Surroundings}
  {m m' : Memory} {ys : List Value} {x : Option Value} {T : List Value} {d v w : Value}
  {ms : List Value} {touched : Nat → Prop}

/-! ### Marks of towers and definitions -/

/-- Definitions `T` and a tower of merges that are open. -/
structure Ground (g : Table) (start : Nat) (m : Memory) (ms T : List Value) : Prop where
  table : ∀ n v, g n = some v → n < start
  sane : m.Sane g start
  tower : ∀ y ∈ ms, ∃ n, y.mark = some n ∧ n < m.next
    ∧ (∀ u, g n = some u → u.isPending = true) ∧ ∀ d ∈ T, ¬ d.Owns n
  known : ∀ d ∈ T, d.Known g
  apart : T.Pairwise fun d d' => ∀ n, d.Owns n → ¬ d'.Owns n

/-- The marks of a tower and of definitions. -/
def Touched (ms T : List Value) (n : Nat) : Prop :=
  (∃ y ∈ ms, y.mark = some n) ∨ ∃ d ∈ T, d.Owns n

theorem Touched.mono {T' : List Value} {n : Nat} (h : Touched ms T n) (sub : ∀ d ∈ T, d ∈ T') :
    Touched ms T' n := by
  rcases h with h | ⟨d, hd, owns⟩
  · exact .inl h
  · exact .inr ⟨d, sub d hd, owns⟩

namespace Ground

/-- The same later on. -/
theorem later (h : Ground g start m ms T) (sane : m'.Sane g start) (le : m.next ≤ m'.next) :
    Ground g start m' ms T :=
  { h with
    sane
    tower := fun y hy => by
      obtain ⟨n, mark, lt, rest⟩ := h.tower y hy
      exact ⟨n, mark, Nat.lt_of_lt_of_le lt le, rest⟩ }

theorem of_sublist {T' : List Value} (h : Ground g start m ms T) (sub : T'.Sublist T) :
    Ground g start m ms T' :=
  { h with
    tower := fun y hy => by
      obtain ⟨n, mark, lt, waits, free⟩ := h.tower y hy
      exact ⟨n, mark, lt, waits, fun d hd => free d (sub.subset hd)⟩
    known := fun d hd => h.known d (sub.subset hd)
    apart := h.apart.sublist sub }

theorem of_suffix {T' : List Value} (h : Ground g start m ms T) (suffix : T' <:+ T) :
    Ground g start m ms T' := h.of_sublist suffix.sublist

theorem of_cons (h : Ground g start m ms (d :: T)) : Ground g start m ms T :=
  h.of_suffix (List.suffix_cons d T)

theorem owns (h : Ground g start m ms T) (hd : d ∈ T) {n : Nat} (owns : d.Owns n) :
    n < m.next ∧ ∀ u, g n = some u → u.isPending = true := by
  obtain ⟨u, entry, waits⟩ := owns.entry (h.known d hd)
  refine ⟨Nat.lt_of_lt_of_le (h.table n u entry) h.sane.start, fun u' hu' => ?_⟩
  cases entry.symm.trans hu'
  exact waits

theorem waits (h : Ground g start m ms T) {n : Nat} (hn : Touched ms T n) :
    n < m.next ∧ ∀ u, g n = some u → u.isPending = true := by
  rcases hn with ⟨y, hy, mark⟩ | ⟨d, hd, owns⟩
  · obtain ⟨i, mark', lt, waits, -⟩ := h.tower y hy
    cases mark.symm.trans mark'
    exact ⟨lt, waits⟩
  · exact h.owns hd owns

/-- Results for definitions and their references may be remembered. -/
theorem remember (h : Ground g start m ms T) (hd : d ∈ T) {n : Nat} (owns : d.Owns n)
    (mark : v.mark = some n) (w : Value) : (m.remember v none w).Sane g start := by
  obtain ⟨lt, waits⟩ := h.owns hd owns
  refine h.sane.remember mark lt (fun u hu waits' => ?_) none
  cases (waits u hu).symm.trans waits'

/-- The topmost definition has marks of its own. -/
theorem head (h : Ground g start m ms (d :: T)) {n : Nat} (owns : d.Owns n) :
    ¬ Touched ms T n := by
  rintro (⟨y, hy, mark⟩ | ⟨d', hd', owns'⟩)
  · obtain ⟨i, mark', -, -, free⟩ := h.tower y hy
    cases mark.symm.trans mark'
    exact free d List.mem_cons_self owns
  · exact List.rel_of_pairwise_cons h.apart hd' n owns owns'

end Ground

/-! ### What is remembered of them -/

/-- Nothing is remembered of the merges of a tower and of definitions. -/
structure Idle (m : Memory) (ms T : List Value) : Prop where
  tower : ∀ y ∈ ms, m.recall? y none = none
  definitions : ∀ d ∈ T, ∀ n, d.Owns n → m.find? n none = none

/-- Definitions have results, but for those that are no more than references. -/
def Done (m : Memory) (T : List Value) : Prop :=
  ∀ d ∈ T, d.isPending = true → (∃ w, m.recall? d none = some w)
    ∨ d.IsBare ∧ ∀ n, d.Owns n → m.find? n none = none

theorem Memory.Spares.recall? (spares : m.Spares g touched m') {n : Nat} (mark : v.mark = some n)
    (lt : n < m.next) (waits : ∀ u, g n = some u → u.isPending = true) (spared : ¬ touched n) :
    m'.recall? v none = m.recall? v none := by
  simp only [Memory.recall?_none, mark, Option.bind_some]
  exact spares.same n lt waits spared

theorem Idle.of_cons (h : Idle m ms (d :: T)) : Idle m ms T :=
  ⟨h.tower, fun d hd => h.definitions d (List.mem_cons_of_mem _ hd)⟩

/-- What is left alone stays idle. -/
theorem Idle.spared (h : Idle m ms T) (ground : Ground g start m ms T)
    (spares : m.Spares g touched m') (apart : ∀ n, Touched ms T n → ¬ touched n) :
    Idle m' ms T where
  tower y hy := by
    obtain ⟨n, mark, lt, waits, -⟩ := ground.tower y hy
    exact (spares.recall? mark lt waits (apart n (.inl ⟨y, hy, mark⟩))).trans (h.tower y hy)
  definitions d hd n owns := by
    obtain ⟨lt, waits⟩ := ground.owns hd owns
    exact (spares.same n lt waits (apart n (.inr ⟨d, hd, owns⟩))).trans (h.definitions d hd n owns)

/-- A definition stays idle while only what is below it is looked at. -/
theorem Idle.cons (h : Idle m ms (d :: T)) (ground : Ground g start m ms (d :: T))
    (spares : m.Spares g (Touched ms T) m') (idle : Idle m' ms T) : Idle m' ms (d :: T) where
  tower := idle.tower
  definitions := by
    refine List.forall_mem_cons.2 ⟨fun n owns => ?_, idle.definitions⟩
    obtain ⟨lt, waits⟩ := ground.owns List.mem_cons_self owns
    exact (spares.same n lt waits (ground.head owns)).trans
      (h.definitions d List.mem_cons_self n owns)

/-- What is left alone stays done. -/
theorem Done.spared (h : Done m T) (ground : Ground g start m ms T)
    (spares : m.Spares g touched m') (apart : ∀ d ∈ T, ∀ n, d.Owns n → ¬ touched n) :
    Done m' T := by
  intro d hd waits
  obtain ⟨n, mark, -⟩ := (ground.known d hd).exists_mark
  have own : d.Owns n := ⟨d, .inl rfl, waits, mark⟩
  rcases h d hd waits with ⟨w, hw⟩ | ⟨bare, free⟩
  · obtain ⟨lt, waits'⟩ := ground.owns hd own
    exact .inl ⟨w, (spares.recall? mark lt waits' (apart d hd n own)).trans hw⟩
  · refine .inr ⟨bare, fun i hi => ?_⟩
    obtain ⟨lt, waits'⟩ := ground.owns hd hi
    exact (spares.same i lt waits' (apart d hd i hi)).trans (free i hi)

/-- A definition stays done while only what is below it is looked at. -/
theorem Done.cons (h : Done m [d]) (ground : Ground g start m ms (d :: T))
    (spares : m.Spares g (Touched ms T) m') (done : Done m' T) : Done m' (d :: T) := by
  have head := h.spared (ground.of_sublist (List.nil_sublist T |>.cons_cons d)) spares
    fun x hx n owns => ground.head (List.mem_singleton.1 hx ▸ owns)
  exact List.forall_mem_cons.2 ⟨head d List.mem_cons_self, done⟩

theorem Done.head (h : Done m (d :: T)) : Done m [d] :=
  List.forall_mem_singleton.2 (h d List.mem_cons_self)

theorem Done.of_cons (h : Done m (d :: T)) : Done m T :=
  (List.forall_mem_cons.1 h).2

/-- Definitions that come to nothing are done without a result. -/
theorem Idle.done (h : Idle m ms T) (history : History k T)
    (wf : ∀ d ∈ T, d.WellFormed .spelled) (gone : comesTo T = some none) : Done m T := by
  induction T with
  | nil => nofun
  | cons d T ih =>
    obtain ⟨-, bare, history', gone', -⟩ := history.of_comesTo_eq_none wf gone
    intro x hx waits
    rcases List.mem_cons.1 hx with rfl | hx
    · exact .inr ⟨bare, h.definitions x List.mem_cons_self⟩
    · exact ih h.of_cons history' (fun d hd => wf d (List.mem_cons_of_mem _ hd)) gone' x hx waits

/-! ### Views -/

/-- The merges that are open, and the one that shows. -/
def tower (ys : List Value) (x : Option Value) : List Value := ys ++ x.toList.filter isMerge

/-- What is the case where `K` shows the history `T`. -/
structure Outlook (g : Table) (start : Nat) (k : Path) (K : Value) (c : Surroundings) (m : Memory)
    (ys : List Value) (x : Option Value) (T : List Value) : Prop where
  shows : Shows c K ys x
  pile : ∀ u, x = some u → IsPile u T
  empty : x = none → T = []
  opens : ∀ o ∈ c.merges, o.node < m.next
  history : History k T
  wellFormed : ∀ d ∈ T, d.WellFormed .spelled
  available : ∀ d ∈ T, ∀ p r n, reference p r ∈ d.pieces → p.mark = some n → n ∈ c.available
  ground : Ground g start m (tower ys x) T

/-- What resolving `K` comes to where it shows the history `T`. -/
def Verdict (g : Table) (start : Nat) (K : Value) (m : Memory) (ms T : List Value)
    (out : Except Failure (Option Value)) (m' : Memory) : Prop :=
  match comesTo T with
  | none => ∃ e, out = .error (.error e)
  | some none => (out = .ok none ∨ T = [] ∧ ∃ t, out = .error (.cycle t)) ∧ m'.Sane g start
    ∧ m.Spares g (Touched ms T) m' ∧ Idle m' ms T
  | some (some u) => ∃ w, out = .ok (some w) ∧ StandsFor u w ∧ m'.Sane g start
    ∧ m.Spares g (Touched ms T) m' ∧ m'.recall? K none = some w ∧ Done m' T

/-- Wherever `K` shows the history, resolving it gives what the history comes to. -/
def Viewed (s : Setting) (g : Table) (start : Nat) (k : Path) (K : Value) (T : List Value) : Prop :=
  ∀ c m ys x, Outlook g start k K c m ys x T → Idle m (tower ys x) T →
    Ensures (resolve s c K none) m (Verdict g start K m (tower ys x) T)

namespace Outlook

/-- The same later on. -/
theorem later (h : Outlook g start k K c m ys x T) (sane : m'.Sane g start)
    (le : m.next ≤ m'.next) : Outlook g start k K c m' ys x T :=
  { h with
    opens := fun o ho => Nat.lt_of_lt_of_le (h.opens o ho) le
    ground := h.ground.later sane le }

/-- The same while a reference from elsewhere is being looked up. -/
theorem within (h : Outlook g start k K c m ys x T) {n : Nat} (other : ∀ d ∈ T, ¬ d.Owns n)
    (trace : List PathReference) : Outlook g start k K (c.within n trace) m ys x T :=
  { h with
    shows := h.shows.congr rfl
    available := fun d hd p r i hi mark => by
      refine List.mem_filter.2 ⟨h.available d hd p r i hi mark, ?_⟩
      have : i ≠ n := by
        rintro rfl
        exact other d hd ⟨_, .inr hi, rfl, mark⟩
      simpa using this }

end Outlook

/-! ### One definition above others -/

/-- A definition that looks back and may do so. -/
structure Poised (k : Path) (c : Surroundings) (d : Value) : Prop where
  looks : LooksBack k d
  wellFormed : d.WellFormed .spelled
  available : ∀ p r n, reference p r ∈ d.pieces → p.mark = some n → n ∈ c.available

/-- The memory before a definition above the history `T` has seen anything. -/
structure Blank (g : Table) (start : Nat) (m₀ : Memory) (ms T : List Value) (d : Value)
    (m : Memory) : Prop where
  ground : Ground g start m ms (d :: T)
  spares : m₀.Spares g (Touched ms (d :: T)) m
  idle : Idle m ms (d :: T)

/-- The memory once a definition has seen `w`, which is what there is now for `K`. -/
structure Seen (g : Table) (start : Nat) (K : Value) (m₀ : Memory) (ms T : List Value)
    (d w : Value) (m : Memory) : Prop where
  ground : Ground g start m ms (d :: T)
  spares : m₀.Spares g (Touched ms (d :: T)) m
  single : w.Single
  open_ : K ∈ ms
  whole : m.recall? K none = some w
  done : Done m T
  own : ∀ x ∈ d.pieces, x.isPending = true → m.recall? x none = none ∨ m.recall? x none = some w

section Definition

variable {m₀ : Memory}

/-- A reference of a definition has one of its marks. -/
theorem Poised.owns (h : Poised k c d) (known : d.Known g) {p : Provenance} {r : Reference}
    (hx : reference p r ∈ d.pieces) :
    ∃ n, p.mark = some n ∧ d.Owns n ∧ g n = some (reference p r) ∧ r.target.path = k := by
  obtain ⟨n, mark, entry⟩ := (known.pieces _ hx).exists_mark
  exact ⟨n, mark, ⟨_, .inr hx, rfl, mark⟩, entry, h.looks.pieces _ hx⟩

theorem Blank.still (h : Blank g start m₀ ms T d m) (sane : m'.Sane g start)
    (spares : m.Spares g (fun _ => False) m') : Blank g start m₀ ms T d m' where
  ground := h.ground.later sane spares.le
  spares := h.spares.trans (spares.mono fun _ _ => False.elim)
  idle := h.idle.spared h.ground spares fun _ _ => id

theorem Seen.step (h : Seen g start K m₀ ms T d w m) (sane : m'.Sane g start)
    (spares : m.Spares g d.Owns m')
    (own : ∀ x ∈ d.pieces, x.isPending = true →
      m'.recall? x none = none ∨ m'.recall? x none = some w) :
    Seen g start K m₀ ms T d w m' where
  ground := h.ground.later sane spares.le
  spares := h.spares.trans (spares.mono fun n _ owns => .inr ⟨d, List.mem_cons_self, owns⟩)
  single := h.single
  open_ := h.open_
  whole := by
    obtain ⟨n, mark, lt, waits, free⟩ := h.ground.tower K h.open_
    exact (spares.recall? mark lt waits (free d List.mem_cons_self)).trans h.whole
  done := h.done.spared h.ground.of_cons spares fun d' hd' n owns' owns =>
    h.ground.head owns (.inr ⟨d', hd', owns'⟩)
  own := own

theorem Seen.still (h : Seen g start K m₀ ms T d w m) (sane : m'.Sane g start)
    (spares : m.Spares g (fun _ => False) m') : Seen g start K m₀ ms T d w m' := by
  refine h.step sane (spares.mono fun _ _ => False.elim) fun x hx waits => ?_
  obtain ⟨n, mark, -⟩ := ((h.ground.known d List.mem_cons_self).pieces x hx).exists_mark
  obtain ⟨lt, waits'⟩ := h.ground.owns List.mem_cons_self ⟨x, .inr hx, waits, mark⟩
  rw [spares.recall? mark lt waits' id]
  exact h.own x hx waits

/-- Results for a definition or one of its references are remembered without harm. -/
theorem Seen.remember (h : Seen g start K m₀ ms T d w m) {u r : Value}
    (hu : u = d ∨ u ∈ d.pieces) (waits : u.isPending = true)
    (right : ∀ x ∈ d.pieces, x.mark = u.mark → x.isPending = true → r = w) :
    Seen g start K m₀ ms T d w (m.remember u none r) := by
  have known := h.ground.known d List.mem_cons_self
  have known_u : u.Known g := by
    rcases hu with rfl | hu
    · exact known
    · exact known.pieces u hu
  obtain ⟨n, mark, -⟩ := known_u.exists_mark
  have owns : d.Owns n := ⟨u, hu, waits, mark⟩
  refine h.step (h.ground.remember List.mem_cons_self owns mark r)
    ((Memory.Spares.refl m).remember mark fun _ _ => owns) fun x hx waits' => ?_
  obtain ⟨i, mark', -⟩ := (known.pieces x hx).exists_mark
  rw [Memory.recall?_none, mark', Option.bind_some, Memory.find?_remember]
  split
  · next same => exact .inr (congrArg some (right x hx (by rw [mark', same.1]) waits'))
  · have := h.own x hx waits'
    rwa [Memory.recall?_none, mark'] at this

/-- Pieces that need nothing do no harm. -/
theorem Poised.plainly {P : Memory → Prop} (h : Poised k c d) (known : d.Known g)
    (table : ∀ n v, g n = some v → n < start) (sane : ∀ m, P m → m.Sane g start)
    (still : ∀ m m', P m → m'.Sane g start → m.Spares g (fun _ => False) m' → P m') :
    Plainly s c P d.pieces := by
  intro x hx waits m hm
  obtain ⟨resolved, -⟩ := (h.looks.pieces x hx).isResolved waits
  refine (ensures_resolved (known.pieces x hx) table resolved (sane m hm)).mono
    fun out m' hout => ?_
  obtain ⟨rfl, sane', spares, -⟩ := hout
  exact ⟨_, rfl, rfl, still m m' hm sane' spares⟩

/-- A reference sees again what `K` is known to come to. -/
theorem Poised.finds (site : Site s k K g start) (h : Poised k c d) (hx : v ∈ d.pieces)
    (waits : v.isPending = true) :
    Finds s c (Seen g start K m₀ ms T d w) (fun u m => u = w ∧ Seen g start K m₀ ms T d w m)
      (some w) v := by
  intro m seen
  have known := seen.ground.known d List.mem_cons_self
  obtain ⟨p, r, rfl, target⟩ := (h.looks.pieces v hx).of_isPending waits
  obtain ⟨n, mark, owns, entry, -⟩ := h.owns known hx
  have same : StandsFor w w := ⟨seen.single, seen.single, fun _ => rfl⟩
  rcases seen.own _ hx waits with free | recalled
  · rw [Memory.recall?_none, show (reference p r).mark = some n from mark] at free
    refine ensures_reference site mark target free (h.available p r n hx mark) seen.ground.sane
      fun m' sane spares => ?_
    have seen := seen.still sane spares
    exact ensures_resolve_recalled seen.whole ⟨seen.single.resolved, _, rfl, w, rfl, same,
      ⟨rfl, seen.remember (.inr hx) rfl fun _ _ _ _ => rfl⟩, Memory.recall?_remember mark⟩
  · exact ensures_resolve_recalled recalled ⟨_, rfl, w, rfl, same, ⟨rfl, seen⟩, recalled⟩

theorem Poised.yields (site : Site s k K g start) (h : Poised k c d) (hx : v ∈ d.pieces)
    (waits : v.isPending = true) : Yields s c (Seen g start K m₀ ms T d w) v w := fun m seen =>
  (h.finds site hx waits m seen).mono fun u r m' hu ⟨w', hr, _, ⟨e, seen⟩, _⟩ =>
    ⟨by rw [hr, e, Option.some.inj hu], seen⟩

/-- A definition whose first reference sees something is what that makes of it. -/
theorem comes_definition_seen (site : Site s k K g start) (h : Poised k c d) {P : Memory → Prop}
    {o : Option Value} (known : d.Known g) (idle : ∀ n, d.Owns n → m.find? n none = none)
    (plain : Plainly s c P d.pieces)
    (refs : ∀ x ∈ d.pieces, x.isPending = true → Finds s c P (Seen g start K m₀ ms T d) o x)
    (hm : P m) :
    Comes (resolve s c d none) m (o.bind fun u => revise (some u) d)
      (Makes (fun m => ∃ w, Seen g start K m₀ ms T d w m)
        (fun m => ∃ w, Seen g start K m₀ ms T d w m) d) := by
  obtain ⟨n, mark, -⟩ := known.exists_mark
  refine comes_definition_finding h.looks h.wellFormed mark
    (idle n ⟨d, .inl rfl, h.looks.isPending, mark⟩) plain
    (fun w => h.plainly known site.table (fun m seen => seen.ground.sane)
      fun m m' seen => seen.still)
    refs (fun x hx waits w => h.yields site hx waits) (fun w m next seen le => ?_)
    (fun apart w m u seen => ?_) hm
  · exact seen.still (seen.ground.sane.renew le) ((Memory.Spares.refl m).renew le)
  · refine seen.remember (.inl rfl) h.looks.isPending fun x hx same _ => ?_
    exact absurd ((known.pieces x hx).eq_of_mark known same ▸ hx) apart

/-- A definition that sees what `K` is known to come to. -/
theorem comes_definition_known (site : Site s k K g start) (h : Poised k c d)
    (idle : ∀ n, d.Owns n → m.find? n none = none) (seen : Seen g start K m₀ ms T d w m) :
    Comes (resolve s c d none) m (revise (some w) d)
      (Makes (fun m => ∃ w, Seen g start K m₀ ms T d w m)
        (fun m => ∃ w, Seen g start K m₀ ms T d w m) d) := by
  have known := seen.ground.known d List.mem_cons_self
  refine comes_definition_seen site h (P := Seen g start K m₀ ms T d w) (o := some w) known idle
    (h.plainly known site.table (fun m seen => seen.ground.sane)
      fun m m' seen => seen.still) (fun x hx waits m seen => ?_) seen
  refine (h.finds site hx waits m seen).mono fun u r m' _ hr => ?_
  obtain ⟨w', hr, same, ⟨rfl, seen⟩, recalled⟩ := hr
  exact ⟨w', hr, same, seen, recalled⟩

/-- What there is to know of a definition above the history `T`, once it has been resolved. -/
def Resolved (g : Table) (start : Nat) (K : Value) (m₀ : Memory) (ms T : List Value) (d : Value)
    (b r : Option Value) (m : Memory) : Prop :=
  Ground g start m ms (d :: T) ∧ m₀.Spares g (Touched ms (d :: T)) m
    ∧ (b = none ∧ r = none ∧ comesTo T = some none ∧ Idle m ms (d :: T)
      ∨ ∃ v w, b = some v ∧ r = some w ∧ StandsFor v w ∧ m.recall? d none = some w
        ∧ (comesTo T = some none ∧ Idle m ms T
          ∨ comesTo T ≠ some none ∧ Done m T ∧ ∃ u, u.Single ∧ m.recall? K none = some u))

/-- The references of a definition look at `K` as it shows the history below. -/
theorem Poised.comes_reference (site : Site s k K g start) (h : Poised k c d)
    (viewed : Viewed s g start k K T) (outlook : Outlook g start k K c m₀ ys x T)
    (blank : Blank g start m₀ (tower ys x) T d m) {p : Provenance} {r : Reference}
    (hx : reference p r ∈ d.pieces) {Q : Except Failure (Option Value) → Memory → Prop}
    (hQ : ∀ m' out m'', Blank g start m₀ (tower ys x) T d m' →
      Verdict g start K m' (tower ys x) T out m'' → Refers p r Q out m'') :
    Ensures (resolve s c (reference p r) none) m Q := by
  obtain ⟨n, mark, owns, -, target⟩ := h.owns (blank.ground.known d List.mem_cons_self) hx
  refine ensures_reference site mark target (blank.idle.definitions d List.mem_cons_self n owns)
    (h.available p r n hx mark) blank.ground.sane fun m' sane spares => ?_
  have blank' := blank.still sane spares
  have other (d' : Value) (hd' : d' ∈ T) (owns' : d'.Owns n) : False :=
    blank.ground.head owns (.inr ⟨d', hd', owns'⟩)
  exact (viewed _ m' ys x ((outlook.later sane blank'.spares.le).within other _)
    blank'.idle.of_cons).mono fun out m'' verdict => hQ m' out m'' blank' verdict

/-- A reference that is being looked up in vain drops out if it is optional. -/
theorem Refers.of_vanished_if {P : Memory → Prop} {p : Provenance} {r : Reference}
    {out : Except Failure (Option Value)}
    (vanished : out = .ok none ∨ ∃ t, out = .error (.cycle t)) (hm : P m) :
    Refers p r (Expects (if r.target.optional then some () else none) fun _ r m' => r = none ∧ P m')
      out m := by
  refine .of_vanished vanished (fun optional => ?_) fun mandatory e => ?_
  · rw [if_pos optional]
    exact ⟨none, rfl, rfl, hm⟩
  · rw [if_neg (Bool.eq_false_iff.1 mandatory)]
    exact ⟨e, rfl⟩

/-- Looking at what is below leaves a definition blank if there is nothing below. -/
theorem Blank.looked (h : Blank g start m₀ ms T d m) (sane : m'.Sane g start)
    (spares : m.Spares g (Touched ms T) m') (idle : Idle m' ms T) :
    Blank g start m₀ ms T d m' where
  ground := h.ground.later sane spares.le
  spares := h.spares.trans (spares.mono fun _ _ touched =>
    touched.mono fun _ => List.mem_cons_of_mem _)
  idle := h.idle.cons h.ground spares idle

/-- Looking at what is below lets a definition see it. -/
theorem Blank.seen (h : Blank g start m₀ ms T d m) (sane : m'.Sane g start)
    (spares : m.Spares g (Touched ms T) m') (single : w.Single) (open_ : K ∈ ms)
    (whole : m'.recall? K none = some w) (done : Done m' T) :
    Seen g start K m₀ ms T d w m' where
  ground := h.ground.later sane spares.le
  spares := h.spares.trans (spares.mono fun _ _ touched =>
    touched.mono fun _ => List.mem_cons_of_mem _)
  single := single
  open_ := open_
  whole := whole
  done := done
  own x hx waits := by
    obtain ⟨n, mark, -⟩ := ((h.ground.known d List.mem_cons_self).pieces x hx).exists_mark
    have owns : d.Owns n := ⟨x, .inr hx, waits, mark⟩
    obtain ⟨lt, waits'⟩ := h.ground.owns List.mem_cons_self owns
    rw [spares.recall? mark lt waits' (h.ground.head owns), Memory.recall?_none, mark]
    exact .inl (h.idle.definitions d List.mem_cons_self n owns)

/-- A definition whose references see nothing, as there is nothing below. -/
theorem comes_definition_blank (h : Poised k c d) (gone : comesTo T = some none)
    (blank : Blank g start m ms T d m)
    (refs : ∀ pre p r post, d.pieces = pre ++ reference p r :: post →
      (∀ q t, reference q t ∈ pre → t.target.optional = true) →
      Drops s c (Blank g start m ms T d) p r) :
    Comes (resolve s c d none) m (revise none d) (Resolved g start K m ms T d) := by
  have known := blank.ground.known d List.mem_cons_self
  have plain : Plainly s c (Blank g start m ms T d) d.pieces :=
    h.plainly known blank.ground.table (fun _ blank => blank.ground.sane) fun _ _ blank => blank.still
  obtain ⟨n, mark, -⟩ := known.exists_mark
  have owns : d.Owns n := ⟨d, .inl rfl, h.looks.isPending, mark⟩
  refine Comes.mono (R := Makes (Blank g start m ms T d) (fun m' =>
      Ground g start m' ms (d :: T) ∧ m.Spares g (Touched ms (d :: T)) m' ∧ Idle m' ms T) d)
    (comes_definition_dropping h.looks h.wellFormed mark
      (blank.idle.definitions d List.mem_cons_self n owns) plain refs (fun m' next blank le => ?_)
      (fun m' w blank => ?_) blank) fun b r m' _ made => ?_
  · exact blank.still (blank.ground.sane.renew le) ((Memory.Spares.refl m').renew le)
  · have spares : m'.Spares g d.Owns (m'.remember d none w) :=
      (Memory.Spares.refl m').remember mark fun _ _ => owns
    have sane := blank.ground.remember List.mem_cons_self owns mark w
    refine ⟨blank.ground.later sane spares.le, ?_, blank.idle.of_cons.spared blank.ground.of_cons
      spares fun i touched owns => blank.ground.head owns touched⟩
    exact blank.spares.trans (spares.mono fun i _ owns => .inr ⟨d, List.mem_cons_self, owns⟩)
  · rcases made with ⟨rfl, rfl, blank⟩ | ⟨v, w, rfl, rfl, same, ⟨ground, spares, idle⟩, recalled⟩
    · exact ⟨blank.ground, blank.spares, .inl ⟨rfl, rfl, gone, blank.idle⟩⟩
    · exact ⟨ground, spares, .inr ⟨v, w, rfl, rfl, same, recalled, .inl ⟨gone, idle⟩⟩⟩

/-- A definition where `K` shows the history `T` below it. -/
theorem comes_definition (site : Site s k K g start) (h : Poised k c d)
    (viewed : Viewed s g start k K T) (outlook : Outlook g start k K c m ys x T)
    (open_ : K ∈ tower ys x) (ground : Ground g start m (tower ys x) (d :: T))
    (idle : Idle m (tower ys x) (d :: T)) :
    Comes (resolve s c d none) m ((comesTo T).bind fun earlier => revise earlier d)
      (Resolved g start K m (tower ys x) T d) := by
  have known := ground.known d List.mem_cons_self
  have blank : Blank g start m (tower ys x) T d m := ⟨ground, .refl m, idle⟩
  by_cases gone : comesTo T = some none
  · -- there is nothing below, so that the references vanish
    rw [gone, Option.bind_some]
    refine comes_definition_blank h gone blank fun pre p r post e _ m' blank => ?_
    have hx : reference p r ∈ d.pieces := e ▸ List.mem_append_right _ List.mem_cons_self
    refine h.comes_reference site viewed outlook blank hx fun m' out m'' blank verdict => ?_
    simp only [Verdict, gone] at verdict
    obtain ⟨hout, sane, spares, idle⟩ := verdict
    exact .of_vanished_if (hout.imp_right And.right) (blank.looked sane spares idle)
  · obtain ⟨o, ho⟩ : ∃ o : Option Value, comesTo T = o.map some := by
      rcases hT : comesTo T with _ | _ | u
      · exact ⟨none, rfl⟩
      · exact absurd hT gone
      · exact ⟨some u, rfl⟩
    have eq : ((comesTo T).bind fun earlier => revise earlier d)
        = o.bind fun u => revise (some u) d := by
      rw [ho]
      cases o <;> rfl
    have plain : Plainly s c (Blank g start m (tower ys x) T d) d.pieces :=
      h.plainly known ground.table (fun _ blank => blank.ground.sane) fun _ _ blank => blank.still
    have refs (v : Value) (hv : v ∈ d.pieces) (waits : v.isPending = true) :
        Finds s c (Blank g start m (tower ys x) T d) (Seen g start K m (tower ys x) T d) o v := by
      intro m' blank
      obtain ⟨p, r, rfl, -⟩ := (h.looks.pieces v hv).of_isPending waits
      obtain ⟨i, mark', -⟩ := h.owns known hv
      refine h.comes_reference site viewed outlook blank hv fun m' out m'' blank verdict => ?_
      cases o with
      | none =>
        simp only [Verdict, ho, Option.map_none] at verdict
        obtain ⟨e, rfl⟩ := verdict
        exact ⟨e, rfl⟩
      | some u =>
        simp only [Verdict, ho, Option.map_some] at verdict
        obtain ⟨w, rfl, same, sane, spares, whole, done⟩ := verdict
        have seen := blank.seen sane spares same.right open_ whole done
        exact ⟨same.right.resolved, some w, rfl, w, rfl, same,
          seen.remember (.inr hv) rfl fun _ _ _ _ => rfl, Memory.recall?_remember mark'⟩
    rw [eq]
    refine (comes_definition_seen site h known (idle.definitions d List.mem_cons_self) plain refs
      blank).mono fun b r m' hb made => ?_
    rcases made with ⟨rfl, -, -⟩ | ⟨v, w, rfl, rfl, same, ⟨u, seen⟩, recalled⟩
    · -- what sees a value comes to one
      obtain ⟨u, rfl, nothing⟩ := Option.bind_eq_some_iff.1 hb
      have single (w : Value) (hw : some u = some w) : w.Single :=
        outlook.history.single outlook.wellFormed (hw ▸ ho)
      cases (revise_eq_none single h.looks h.wellFormed nothing).1
    · exact ⟨seen.ground, seen.spares, .inr ⟨v, w, rfl, rfl, same, recalled,
        .inr ⟨gone, seen.done, u, seen.single, seen.whole⟩⟩⟩

end Definition

end Hocon.Resolution
