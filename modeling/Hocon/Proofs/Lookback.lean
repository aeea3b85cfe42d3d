import Hocon.Proofs.Chains
import Hocon.Proofs.Safety

/-!
# Definitions that look back, in a document
-/

namespace Hocon

namespace Value

variable {K v w d : Value} {k : Path} {ls : List Value} {g : Table}

/-! ### Where definitions are -/

/-- A tree of open objects along some keys in which nothing waits but what is at these keys: the
definitions that are given, the newest first, if there are any. -/
inductive Holds : List String → List Value → Value → Prop
  | here {v : Value} {ls : List Value} (pile : IsPile v ls) : Holds [] ls v
  | missing {p : Provenance} {fs : Entries Value} {key : String} {keys : List String}
      (nodup : (Entries.keys fs).Nodup) (get : Entries.get? fs key = none)
      (others : ∀ f ∈ fs, f.2.isResolved = true) : Holds (key :: keys) [] (object p false fs)
  | inside {p : Provenance} {fs : Entries Value} {key : String} {keys : List String} {w : Value}
      {ls : List Value} (nodup : (Entries.keys fs).Nodup) (get : Entries.get? fs key = some w)
      (others : ∀ f ∈ fs, f.1 ≠ key → f.2.isResolved = true) (rest : Holds keys ls w) :
      Holds (key :: keys) ls (object p false fs)

theorem IsPile.ne_nil (h : IsPile v ls) : ls ≠ [] := by
  cases h with
  | one => exact List.cons_ne_nil _ _
  | many two =>
    rintro rfl
    simp at two

/-- Where there is a definition, the keys lead to it. -/
theorem Holds.exists_leads {keys : List String} (h : Holds keys ls v) (present : ls ≠ []) :
    ∃ K, Leads K keys v ∧ IsPile K ls := by
  induction h with
  | here pile => exact ⟨_, .here, pile⟩
  | missing => exact absurd rfl present
  | inside nodup get others _ ih =>
    obtain ⟨K, leads, pile⟩ := ih present
    exact ⟨K, .inside nodup get others leads, pile⟩

/-- Without definitions nothing waits, and there is nothing at the keys. -/
theorem Holds.isResolved {keys : List String} (h : Holds keys [] v) :
    v.isResolved = true ∧ v.peek? keys = none := by
  generalize hl : [] = ls at h
  induction h with
  | here pile => exact absurd hl.symm pile.ne_nil
  | missing nodup get others =>
    refine ⟨fieldsResolved_iff.2 others, ?_⟩
    simp only [Value.peek?, fields?, Option.bind_eq_bind, Option.bind_some, get, Option.bind_none]
  | @inside p fs key keys w ls nodup get others _ ih =>
    obtain ⟨resolved, nothing⟩ := ih hl
    refine ⟨fieldsResolved_iff.2 fun f hf => ?_, ?_⟩
    · by_cases same : f.1 = key
      · have := Entries.get?_of_mem nodup (show (f.1, f.2) ∈ fs from hf)
        rw [same, get] at this
        exact Option.some.inj this ▸ resolved
      · exact others f hf same
    · simp only [Value.peek?, fields?, Option.bind_eq_bind, Option.bind_some, get, nothing]

theorem Leads.isResolved {keys : List String} (h : Leads K keys v) (resolved : K.isResolved = true) :
    v.isResolved = true := by
  induction h with
  | here => exact resolved
  | @inside p closed fs key keys w nodup get others _ ih =>
    refine fieldsResolved_iff.2 fun f hf => ?_
    by_cases same : f.1 = key
    · have := Entries.get?_of_mem nodup (show (f.1, f.2) ∈ fs from hf)
      rw [same, get] at this
      exact Option.some.inj this ▸ ih
    · exact others f hf same

/-! ### Marks -/

/-- No node of the tree has a mark. -/
abbrev Unmarked (v : Value) : Prop := v.Markable True fun _ => none

theorem Unmarked.mark (h : v.Unmarked) : v.mark = none := by
  cases h with
  | known h =>
    obtain ⟨_, _, h⟩ := h.exists_mark
    cases h
  | fresh mark => exact mark

theorem Known.within {u : Value} (h : v.Known g) (hu : u.Within v) : u.Known g :=
  hu.passes (fun _ h => h.parts) h

/-- The marks that a tree without marks is given. -/
theorem mark_of_within_markFrom {u : Value} {next n : Nat} (h : v.Unmarked)
    (hu : u.Within (v.markFrom next).1) (mark : u.mark = some n) :
    next ≤ n ∧ n < (v.markFrom next).2 := by
  obtain ⟨g, grows, known⟩ := exists_known_markFrom v (fun _ => none) next nofun h
  have entry := (known.within hu).entry mark
  refine ⟨Nat.le_of_not_lt fun lt => ?_, grows.below n u entry⟩
  cases (grows.same n lt).symm.trans entry

/-- Two trees have no mark in common. -/
def Apart (v w : Value) : Prop :=
  ∀ u u' : Value, u.Within v → u'.Within w → ∀ n, u.mark = some n → u'.mark ≠ some n

/-- Items that are marked one after the other have no marks in common. -/
theorem pairwise_apart_markItems {vs : List Value} (h : ∀ v ∈ vs, v.Unmarked) (next : Nat) :
    (markItems next vs).1.Pairwise Apart
      ∧ ∀ w ∈ (markItems next vs).1, ∀ u : Value, u.Within w → ∀ n, u.mark = some n → next ≤ n := by
  induction vs generalizing next with
  | nil => exact ⟨.nil, nofun⟩
  | cons v vs ih =>
    obtain ⟨hv, hvs⟩ := List.forall_mem_cons.1 h
    obtain ⟨apart, above⟩ := ih hvs (v.markFrom next).2
    rw [markItems]
    refine ⟨.cons (fun w hw u u' hu hu' n mark mark' => ?_) apart,
      List.forall_mem_cons.2 ⟨fun u hu n mark => (mark_of_within_markFrom hv hu mark).1,
        fun w hw u hu n mark => Nat.le_trans (le_markFrom v next) (above w hw u hu n mark)⟩⟩
    exact absurd (mark_of_within_markFrom hv hu mark).2 (Nat.not_lt.2 (above w hw u' hu' n mark'))

theorem forall₂_alike_markItems (vs : List Value) (next : Nat) :
    List.Forall₂ Alike vs (markItems next vs).1 := by
  induction vs generalizing next with
  | nil => exact .nil
  | cons v vs ih => exact .cons (alike_markFrom v next) (ih _)

/-- A pile of definitions gets marks. -/
theorem IsPile.exists_marked (h : IsPile v ls) (unmarked : v.Unmarked) (next : Nat) :
    ∃ ls', IsPile (v.markFrom next).1 ls' ∧ List.Forall₂ Alike ls ls' ∧ ls'.Pairwise Apart := by
  cases h with
  | one flat =>
    have flat' : (v.markFrom next).1.isMerge = false := by
      rw [← flat]
      cases v <;> rw [Value.markFrom] <;> split <;> rfl
    exact ⟨_, .one flat', .cons (alike_markFrom v next) .nil, List.pairwise_singleton _ _⟩
  | @many p ls two =>
    have fresh : ¬ p.isMarked = true := by
      rw [Provenance.isMarked, show p.mark = none from unmarked.mark]
      exact Bool.false_ne_true
    rw [Value.markFrom, if_neg fresh]
    refine ⟨_, .many ?_, forall₂_alike_markItems ls _,
      (pairwise_apart_markItems (fun l hl => unmarked.parts l hl) _).1⟩
    rwa [length_markItems]

/-- The keys lead to the same in a tree that has got marks. -/
theorem Leads.exists_marked {keys : List String} (h : Leads K keys v) (unmarked : v.Unmarked)
    (next : Nat) : ∃ b, Leads (K.markFrom b).1 keys (v.markFrom next).1 ∧ K.Unmarked := by
  induction h generalizing next with
  | here => exact ⟨next, .here, unmarked⟩
  | @inside p closed fs key keys w nodup get others _ ih =>
    have fresh : ¬ p.isMarked = true := by
      rw [Provenance.isMarked, show p.mark = none from unmarked.mark]
      exact Bool.false_ne_true
    rw [Value.markFrom, if_neg fresh]
    have nodup' : (Entries.keys (markFields (next + 1) fs).1).Nodup := by rwa [keys_markFields]
    obtain ⟨w', get'⟩ := Entries.exists_get?_of_mem_keys
      (keys_markFields (next + 1) fs ▸ Entries.mem_keys_of_get? get : key ∈ _)
    obtain ⟨n, rfl⟩ := get?_markFields get get'
    obtain ⟨b, leads, rest⟩ :=
      ih (unmarked.parts w (mem_parts_of_mem_fields (Entries.mem_of_get? get))) n
    refine ⟨b, .inside nodup' get' (fun f hf other => ?_) leads, rest⟩
    -- the other fields still need nothing
    have marked := Entries.get?_of_mem nodup' (show (f.1, f.2) ∈ _ from hf)
    have mem : f.1 ∈ Entries.keys fs := keys_markFields (next + 1) fs ▸ Entries.mem_keys_of_get? marked
    obtain ⟨u, hu⟩ := Entries.exists_get?_of_mem_keys mem
    obtain ⟨i, hi⟩ := get?_markFields hu marked
    rw [hi]
    exact isResolved_markFrom_iff.2 (others _ (Entries.mem_of_get? hu) other)

/-! ### Histories of marked definitions -/

theorem IsPiece.alike {x y : Value} (h : IsPiece k x) (wf : x.WellFormed .spelled)
    (like : x.Alike y) : IsPiece k y := by
  cases waits : x.isPending with
  | true =>
    obtain ⟨p, r, rfl, target⟩ := h.of_isPending waits
    cases like
    exact target
  | false =>
    obtain ⟨resolved, notObject⟩ := h.isResolved waits
    have single := Single.alike ⟨wf, resolved, notObject⟩ like
    have waits' := isPending_of_isResolved single.resolved
    cases y with
    | reference => cases waits'
    | _ => exact ⟨single.resolved, single.notObject⟩

theorem LooksBack.alike (h : LooksBack k d) (wf : d.WellFormed .spelled) (like : d.Alike w) :
    LooksBack k w := by
  have pieces := like.pieces
  refine ⟨fun y hy => ?_, ?_⟩
  · obtain ⟨x, hx, like⟩ := exists_left_of_mem pieces hy
    exact (h.pieces x hx).alike (wf.pieces x hx) like
  · obtain ⟨x, hx, waits⟩ := h.looks
    obtain ⟨y, hy, like : x.Alike y⟩ := exists_left_of_mem pieces.flip hx
    exact ⟨y, hy, like.isPending_eq ▸ waits⟩

theorem History.alike {ls ls' : List Value} (h : History k ls)
    (wf : ∀ d ∈ ls, d.WellFormed .spelled) (like : List.Forall₂ Alike ls ls') : History k ls' := by
  induction h generalizing ls' with
  | nil =>
    cases like
    exact .nil
  | base resolved notObject =>
    obtain _ | ⟨head, ⟨⟩⟩ := like
    have single := Single.alike ⟨wf _ List.mem_cons_self, resolved, notObject⟩ head
    exact .base single.resolved single.notObject
  | cons looks _ ih =>
    obtain _ | ⟨head, tail⟩ := like
    obtain ⟨wd, wf⟩ := List.forall_mem_cons.1 wf
    exact .cons (looks.alike wd head) (ih wf tail)

/-- No definition of a history is a merge, and no piece of one is. -/
theorem History.flat {ls : List Value} (h : History k ls) :
    ∀ d ∈ ls, d.isMerge = false ∧ ∀ x ∈ d.pieces, x.isMerge = false := by
  have piece {x : Value} (hx : IsPiece k x) : x.isMerge = false := by
    cases x with
    | merge => cases hx.1
    | _ => rfl
  induction h with
  | nil => exact nofun
  | @base v resolved notObject =>
    have flat := isMerge_of_isPending_eq_false (isPending_of_isResolved resolved)
    refine List.forall_mem_singleton.2 ⟨flat, fun x hx => ?_⟩
    cases v with
    | concat => cases resolved
    | _ => exact List.mem_singleton.1 hx ▸ flat
  | cons looks _ ih =>
    exact List.forall_mem_cons.2 ⟨⟨looks.isMerge, fun x hx => piece (looks.pieces x hx)⟩, ih⟩

/-! ### What is within a pile -/

/-- The pieces of a definition are nodes of it. -/
theorem within_of_mem_pieces {x d : Value} (hx : x ∈ d.pieces) : x.Within d := by
  cases d with
  | concat p ps => exact .part .self hx
  | _ => exact List.mem_singleton.1 hx ▸ .self

theorem exists_within_of_owns {d : Value} {n : Nat} (h : d.Owns n) :
    ∃ u : Value, u.Within d ∧ u.mark = some n := by
  obtain ⟨u, rfl | hu, -, mark⟩ := h
  · exact ⟨u, .self, mark⟩
  · exact ⟨u, within_of_mem_pieces hu, mark⟩

/-- The layers of a pile are nodes of it. -/
theorem IsPile.within {d : Value} (h : IsPile v ls) (hd : d ∈ ls) : d.Within v := by
  cases h with
  | one => exact List.mem_singleton.1 hd ▸ .self
  | many => exact .part .self hd

end Value

namespace Resolution

open Value

variable {g : Table} {start : Nat} {s : Setting} {k : Path} {K v : Value} {c : Surroundings}
  {m m' : Memory} {ls : List Value}

/-- **At the root, the key shows all of its definitions.** -/
theorem outlook_root (pile : IsPile K ls) (history : History k ls) (apart : ls.Pairwise Apart)
    (wf : ∀ d ∈ ls, d.WellFormed .spelled) (known : K.Known g)
    (table : ∀ n v, g n = some v → n < start) (noMerges : c.merges = [])
    (available : ∀ p r n, (reference p r).Within K → p.mark = some n → n ∈ c.available)
    (sane : m.Sane g start) : Outlook g start k K c m [] (some K) ls := by
  have knowns (d : Value) (hd : d ∈ ls) : d.Known g := known.within (pile.within hd)
  refine ⟨.here ?_, fun u hu => Option.some.inj hu ▸ pile, nofun, ?_, history, wf,
    fun d hd p r n hx mark => available p r n ((within_of_mem_pieces hx).trans (pile.within hd)) mark,
    ⟨table, sane, fun y hy => ?_, knowns, apart.imp_of_mem ?_⟩⟩
  · cases K with
    | merge => simp [Surroundings.showing?, noMerges]
    | _ => rfl
  · simp [noMerges]
  · -- the merge is none of its layers, and no piece of them
    obtain ⟨hy, merge⟩ := List.mem_filter.1 hy
    obtain rfl := List.mem_singleton.1 hy
    obtain ⟨n, mark, entry⟩ := known.exists_mark
    refine ⟨n, mark, Nat.lt_of_lt_of_le (table n y entry) sane.start, fun u hu => ?_, fun d hd owns => ?_⟩
    · cases entry.symm.trans hu
      cases y with
      | merge => rfl
      | _ => cases merge
    · obtain ⟨flat, flats⟩ := history.flat d hd
      obtain ⟨u, hu, -, mark'⟩ := owns
      have known' : u.Known g := by
        rcases hu with rfl | hu
        · exact knowns u hd
        · exact (knowns d hd).pieces u hu
      cases entry.symm.trans (known'.entry mark')
      rcases hu with rfl | hu
      · cases merge.symm.trans flat
      · cases merge.symm.trans (flats _ hu)
  · intro d d' _ _ apart n owns owns'
    obtain ⟨u, hu, mark⟩ := exists_within_of_owns owns
    obtain ⟨u', hu', mark'⟩ := exists_within_of_owns owns'
    exact apart u u' hu hu' n mark mark'

/-- Resolving the key at the root comes to what its definitions come to. -/
theorem amounts_root (site : Site s k K g start) (outlook : Outlook g start k K c m [] (some K) ls)
    (idle : Idle m (tower [] (some K)) ls) :
    Ensures (resolve s c K none) m (Amounts g start [] (comesTo ls)) := by
  have present : ls ≠ [] := (outlook.pile K rfl).ne_nil
  refine (viewed site ls c m [] (some K) outlook idle).mono fun out m' verdict => .inr ?_
  unfold Verdict at verdict
  unfold Expects
  cases comes : comesTo ls with
  | none =>
    rw [comes] at verdict
    exact verdict
  | some b =>
    rw [comes] at verdict
    cases b with
    | none =>
      obtain ⟨rfl | ⟨nil, -⟩, sane, -⟩ := verdict
      · exact ⟨none, rfl, .none, by rintro _ ⟨⟩, sane.settled⟩
      · exact absurd nil present
    | some u =>
      obtain ⟨w, rfl, same, sane, -⟩ := verdict
      exact ⟨some w, rfl, .some same, fun x hx => Option.some.inj hx ▸ same.right.resolved, sane.settled⟩

/-- A resolution fails if nothing is expected, and else it gives what is expected at the keys. -/
def Gives (keys : List String) (o : Option (Option Value)) (x : Except Error Value) : Prop :=
  match o with
  | none => ∃ e, x = .error e
  | some b => ∃ r, x = .ok r ∧ SameHeld b (r.peek? keys)

theorem Gives.congr {keys : List String} {o o' : Option (Option Value)} {x : Except Error Value}
    (h : Gives keys o' x) (same : Option.Rel SameHeld o o') : Gives keys o x := by
  cases same with
  | none => exact h
  | some same =>
    obtain ⟨r, hr, held⟩ := h
    refine ⟨r, hr, ?_⟩
    generalize r.peek? keys = w at held ⊢
    cases same with
    | none => exact held
    | some same =>
      cases held with
      | some held => exact .some (same.trans held)

/-- A run at the root that neither breaks nor leaves anything waiting gives what is expected. -/
theorem Amounts.gives {keys : List String} {o : Option (Option Value)}
    {out : Except Failure (Option Value)} (h : Amounts g start keys o out m)
    (unbroken : ∀ breach, outcome out ≠ .error (.broken breach))
    (settled : ∀ w, outcome out = .ok w → w.isResolved = true) : Gives keys o (outcome out) := by
  rcases h with (⟨breach, rfl⟩ | ⟨w, rfl, waits, -⟩) | h
  · exact absurd rfl (unbroken breach)
  · cases waits.symm.trans (settled w rfl)
  · cases o with
    | none =>
      obtain ⟨e, rfl⟩ := h
      exact ⟨e, rfl⟩
    | some b =>
      obtain ⟨r, rfl, same, -⟩ := h
      cases r with
      | none => exact absurd rfl (unbroken _)
      | some w => exact ⟨w, rfl, same⟩

/-- The resolution of a document neither breaks nor leaves anything waiting. -/
theorem resolve_unbroken (sound : v.Sound (.ofTexts (Plain True)) True fun _ => none)
    (object : v.fields?.isSome = true) (next : Nat) :
    (∀ breach, v.resolve {} next ≠ .error (.broken breach))
      ∧ ∀ w, v.resolve {} next = .ok w → w.isResolved = true := by
  have spec := resolve_spec sound object none next
  refine ⟨fun breach h => ?_, fun w h => ?_⟩
  · simp only [Option.map_none, show v.resolve { environment := none } next = _ from h] at spec
    rcases spec with ⟨_, _, h⟩ | ⟨⟨_, _, h⟩, -⟩ <;> cases h
  · simp only [Option.map_none, show v.resolve { environment := none } next = _ from h] at spec
    exact spec.1

/-- A run on a tree with marks comes to what the definitions do. -/
theorem amounts_marked (unmarked : v.Unmarked) (wf : v.WellFormed .spelled)
    (leads : Leads K k.keys v) (pile : IsPile K ls) (history : History k ls)
    (waits : K.isResolved = false) (next : Nat) :
    ∃ g ls', List.Forall₂ Alike ls ls' ∧
      Ensures (resolve (settingOf {} (v.markFrom next).1 (v.markFrom next).2)
        { available := (v.markFrom next).1.referenceMarks ++ (v.markFrom next).1.referenceMarks }
        (v.markFrom next).1 none) { next := (v.markFrom next).2 }
        (Amounts g (v.markFrom next).2 k.keys (comesTo ls')) := by
  obtain ⟨g, grows, known⟩ := exists_known_markFrom v (fun _ => none) next nofun unmarked
  obtain ⟨b, leads', unmarked'⟩ := leads.exists_marked unmarked next
  obtain ⟨ls', pile', like, apart⟩ := pile.exists_marked unmarked' b
  have within := within_of_peek? leads'.peek?
  have wf_layers (d : Value) (hd : d ∈ ls) : d.WellFormed .spelled :=
    (wf.within (within_of_peek? leads.peek?)).within (pile.within hd)
  have wf_marked (d : Value) (hd : d ∈ ls') : d.WellFormed .spelled := by
    obtain ⟨x, hx, like⟩ := exists_left_of_mem like hd
    exact (wf_layers x hx).alike (fun _ _ _ _ => trivial) like
  have table (n : Nat) (u : Value) (hu : g n = some u) : n < (v.markFrom next).2 :=
    grows.below n u hu
  have sane : ({ next := (v.markFrom next).2 } : Memory).Sane g (v.markFrom next).2 :=
    ⟨Nat.le_refl _, nofun, nofun⟩
  have site : Site (settingOf {} (v.markFrom next).1 (v.markFrom next).2) k (K.markFrom b).1 g
      (v.markFrom next).2 := ⟨rfl, table, fun c m sane => ensures_found table leads' known sane⟩
  have outlook {m : Memory} (sane : m.Sane g (v.markFrom next).2) := outlook_root
    (c := { available := (v.markFrom next).1.referenceMarks ++ (v.markFrom next).1.referenceMarks })
    pile' (history.alike wf_layers like) apart wf_marked (known.within within) table rfl
    (fun p r n hr mark => List.mem_append_left _ (mem_referenceMarks_of_within (hr.trans within) mark))
    sane
  have idle : Idle { next := (v.markFrom next).2 } (tower [] (some (K.markFrom b).1)) ls' := by
    refine ⟨fun y _ => ?_, fun _ _ _ _ => rfl⟩
    rw [Memory.recall?_none]
    cases y.mark <;> rfl
  refine ⟨g, ls', like, ensures_leads rfl table leads' ?_ known (fun m sane' spares => ?_) sane
    (.refl _)⟩
  · exact Bool.eq_false_iff.2 fun h => Bool.eq_false_iff.1 waits (isResolved_markFrom_iff.1 h)
  · exact amounts_root site (outlook sane') (idle.spared (outlook sane).ground spares fun _ _ => id)

/-- **The definitions of a key that look back** make the key what each makes of what the ones
before it come to; resolving fails if one of them does. -/
theorem gives_resolve (sound : v.Sound (.ofTexts (Plain True)) True fun _ => none)
    (holds : Holds k.keys ls v) (history : History k ls) (next : Nat) :
    Gives k.keys (comesTo ls) (v.resolve {} next) := by
  have wf : v.WellFormed .spelled :=
    sound.wellFormed.mono (fun _ _ _ => trivial) (fun _ _ => trivial) fun _ _ => id
  by_cases present : ls = []
  · subst present
    obtain ⟨resolved, nothing⟩ := holds.isResolved
    refine ⟨v, if_pos resolved, ?_⟩
    rw [nothing]
    exact .none
  obtain ⟨K, leads, pile⟩ := holds.exists_leads present
  have wfs (d : Value) (hd : d ∈ ls) : d.WellFormed .spelled :=
    (wf.within (within_of_peek? leads.peek?)).within (pile.within hd)
  cases waits : K.isResolved with
  | true =>
    obtain rfl : ls = [K] := by
      cases pile with
      | one => rfl
      | many => cases waits
    have comes : comesTo [K] = some (some K) := joined_base (isPending_of_isResolved waits)
    have single := history.single wfs comes
    rw [comes]
    refine ⟨v, if_pos (leads.isResolved waits), ?_⟩
    rw [leads.peek?]
    exact .some ⟨single, single, fun _ => rfl⟩
  | false =>
    obtain ⟨g, ls', like, run⟩ := amounts_marked sound.markable wf leads pile history waits
      (max next v.freeMark)
    have object : v.fields?.isSome = true := by
      cases leads
      rfl
    obtain ⟨unbroken, settled⟩ := resolve_unbroken sound object next
    have eq : v.resolve {} next = outcome _ :=
      (if_neg (Bool.eq_false_iff.1 (leads.isResolved_eq_false waits))).trans (run_eq {} _ _ _)
    rw [eq] at unbroken settled ⊢
    exact (Amounts.gives run unbroken settled).congr (history.comesTo_congr like wfs)

end Resolution

end Hocon
