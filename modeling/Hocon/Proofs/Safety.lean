import Hocon.Proofs.Reading
import Hocon.Proofs.Resolving

/-!
# Resolving never trips over itself

Whatever tree a document gives, resolving it either succeeds, and then nothing in the result
waits any more, or it fails for a reason that the document is to blame for: a reference that has
to have a target and has none, or neighbours that cannot be joined.  A cycle never comes out of a
resolution.  Each cycle is met while some reference is being looked up, and the outermost one of
them answers for it.

That is a contract which promises nothing about results.  It says that outside of any lookup all
references of what is being resolved are available, and that it lies within each of the merges
that are open, so that it is none of them.
-/

namespace Hocon

namespace Resolution

open Value

/-! ### The contract -/

/-- Outside of any lookup, all references of `v` are available, and `v` lies within each of the
merges that are open. -/
def Outside (g : Table) (c : Surroundings) (v : Value) : Prop :=
  c.trace = [] → (∀ n ∈ v.referenceMarks, n ∈ c.available) ∧
    ∀ o ∈ c.merges, ∃ w, g o.node = some w ∧ sizeOf v < sizeOf w

/-- The failures that a document is to blame for; cycles have to be met in a lookup. -/
def Justified (mandatory : Prop) (trace : List PathReference) : Failure → Prop
  | .cycle _ => trace ≠ []
  | .error e => (∃ o fault, e = .wrongType o fault)
      ∨ (∃ o fault, e = .unresolved o fault) ∧ mandatory

theorem Outside.part {g : Table} {c : Surroundings} {u v : Value} (h : Outside g c v)
    (hu : u ∈ v.parts) : Outside g c u := by
  intro trace
  obtain ⟨available, merges⟩ := h trace
  refine ⟨fun n hn => available n (referenceMarks_of_mem_parts hu hn), fun o ho => ?_⟩
  obtain ⟨w, hw, lt⟩ := merges o ho
  exact ⟨w, hw, Nat.lt_trans (sizeOf_lt_of_mem_parts hu) lt⟩

/-- Outside of any lookup, no merge that is open is come back to. -/
theorem Outside.trace_ne_nil {g : Table} {c : Surroundings} {v : Value} (h : Outside g c v)
    (known : v.Known g) {shown : Option Value} (hs : c.showing? v = some shown) :
    c.trace ≠ [] := by
  intro trace
  cases v with
  | merge p k ls =>
    obtain ⟨o, ho, -⟩ := Option.map_eq_some_iff.1 hs
    obtain ⟨w, hw, lt⟩ := (h trace).2 o (List.mem_of_find?_eq_some ho)
    have mark : (merge p k ls).mark = some o.node := by
      have := List.find?_some ho
      exact (beq_iff_eq.1 this).symm
    cases hw.symm.trans (known.entry mark)
    exact absurd lt (Nat.lt_irrefl _)
  | _ => cases hs

theorem Outside.layer {g : Table} {c : Surroundings} {p : Provenance} {k : MergeKind}
    {ls : List Value} {l : Value} {i base : Nat} (h : Outside g c (.merge p k ls))
    (known : (Value.merge p k ls).Known g) (hl : l ∈ ls) :
    Outside g (c.opening p.mark i base l) l := by
  intro trace
  obtain ⟨available, merges⟩ := h.part hl trace
  refine ⟨available, fun o ho => ?_⟩
  simp only [Surroundings.opening] at ho
  split at ho
  · next n _ mark =>
    rcases List.mem_cons.1 ho with rfl | ho
    · exact ⟨_, known.entry mark, sizeOf_lt_of_mem_parts (v := .merge p k ls) hl⟩
    · exact merges o ho
  · exact merges o ho

/-- A lookup is never outside of any lookup. -/
theorem Outside.within {g : Table} {c : Surroundings} {m : Nat} {t : PathReference} {v : Value} :
    Outside g (c.within m (c.trace ++ [t])) v := by
  intro trace
  simp [Surroundings.within] at trace

/-- Resolving fails only for reasons that the document is to blame for. -/
def safety (s : Setting) (mandatory : Prop) (strict : s.allowUnresolved = false) :
    Contract s (.ofTexts (Plain mandatory)) where
  pre g c v _ := Outside g c v
  post _ _ _ := True
  fail := Justified mandatory
  strict := strict
  query_alike := plain_alike
  pre_grows grows h trace := by
    obtain ⟨available, merges⟩ := h trace
    refine ⟨available, fun o ho => ?_⟩
    obtain ⟨w, hw, lt⟩ := merges o ho
    exact ⟨w, grows.keeps _ _ hw, lt⟩
  post_part _ := trivial
  post_whole _ _ := trivial
  post_marked _ _ _ := trivial
  hidden h known hs := h.trace_ne_nil known hs
  shown h known hs trace := absurd trace (h.trace_ne_nil known hs)
  post_shown _ _ _ _ := trivial
  unavailable h _ mark unavailable trace := by
    refine unavailable ((h trace).1 _ ?_)
    simp [referenceMarks, mark]
  source _ _ _ _ _ _ := Outside.within
  target _ _ _ _ _ _ _ := Outside.within
  post_reference _ _ _ := trivial
  missing := by
    intro g c p r along _ wf _
    split
    · trivial
    · next optional =>
      cases wf with
      | reference _ h => exact .inr ⟨⟨_, _, rfl⟩, h.2 (by simpa using optional)⟩
  cycle := by
    intro g c p r along trace _ wf _
    split
    · trivial
    · next optional =>
      cases wf with
      | reference _ h => exact .inr ⟨⟨_, _, rfl⟩, h.2 (by simpa using optional)⟩
  error h := h
  retrace := by
    intro trace t t' f h
    cases f with
    | cycle => simp [Justified]
    | error => exact h
  post_self _ _ := trivial
  post_list_part _ := trivial
  field h hv _ := h.part (mem_parts_of_mem_fields hv)
  post_object _ _ _ _ := trivial
  item h hx := h.part hx
  post_list _ _ _ := trivial
  piece h hx := h.part hx
  post_concat := by
    intro g c p ps along rs _ _ h
    have resolved (u : Value) (hu : u ∈ rs.filterMap id) :
        u.WellFormed (.ofTexts (Plain mandatory)) ∧ u.Settled none := by
      obtain ⟨r, hr, e⟩ := List.mem_filterMap.1 hu
      cases e
      obtain ⟨x, -, answer⟩ := exists_left_of_mem h hr
      exact ⟨answer.wellFormed u rfl, answer.settled u rfl⟩
    rcases joinRun_of_isPending fun v hv => isPending_of_isResolved (resolved v hv).2.isResolved
      with ⟨ws, hws, -⟩ | ⟨o, fault, he⟩
    · rw [hws]
      trivial
    · rw [he]
      exact .inl ⟨o, fault, rfl⟩
  layer h known _ hl := h.layer known (List.mem_of_getElem? hl)
  post_merge _ _ _ := trivial

/-- The tree of a document resolves to a tree of the same make, or there is a reason why not. -/
theorem resolve_spec {v : Value} (sound : v.Sound (.ofTexts (Plain True)) True fun _ => none)
    (object : v.fields?.isSome = true) (vars : Option (List (String × String))) (next : Nat) :
    match v.resolve { environment := vars.map Entries.ofPairs } next with
    | .ok r => r.isResolved = true ∧ r.fields?.isSome = true
        ∧ r.WellFormed (.ofTexts (Plain v.HasMandatory))
    | .error e => Justified v.HasMandatory [] (.error e) := by
  have wf := sound.wellFormed.plain
  by_cases resolved : v.isResolved = true
  · rw [Value.resolve, if_pos resolved]
    exact ⟨resolved, object, wf⟩
  have spec := (safety (settingOf { environment := vars.map Entries.ofPairs } (marked v next).1
    (marked v next).2) v.HasMandatory rfl).resolve_spec ⟨_, sound.markable⟩ wf object
    (by simpa using resolved) (fun e he => by
      obtain ⟨pairs, -, rfl⟩ := Option.map_eq_some_iff.1 he
      exact nodup_keys_ofPairs pairs)
    fun _ _ _ _ => ⟨fun n hn => List.mem_append_left _ hn, by rintro _ ⟨⟩⟩
  split
  · next r hr =>
    rw [hr] at spec
    obtain ⟨w, hw, hobject⟩ :=
      spec.object ((alike_markFrom v _).fields?_isSome_eq.trans object)
    cases hw
    exact ⟨(spec.settled r rfl).isResolved, hobject, spec.wellFormed r rfl⟩
  · next e he =>
    rw [he] at spec
    rcases spec with h | ⟨_, h⟩
    · exact h
    · exact absurd rfl h

end Resolution

/-- Resolving the tree of a document that includes nothing gives a tree in which nothing waits,
or an error that the document is to blame for: something of the wrong type, or a reference
that has to have a target and has none. -/
theorem Value.resolve_safe {files : FileTree} {text : String} {v : Value}
    (parsed : ((parseText files {} text).run.run []).1 = .ok v)
    (alone : Document.IncludesNothing text) (vars : Option (List (String × String))) (next : Nat) :
    match v.resolve { environment := vars.map Entries.ofPairs } next with
    | .ok r => ∀ u, u.Within r → (∀ p t, u ≠ Value.reference p t)
        ∧ (∀ p ps, u ≠ Value.concat p ps) ∧ ∀ p k ls, u ≠ Value.merge p k ls
    | .error e => (∃ o fault, e = .wrongType o fault)
        ∨ (∃ o fault, e = .unresolved o fault) ∧ v.HasMandatory := by
  obtain ⟨-, sound, object⟩ := Document.parseText_spec parsed alone
  have spec := Resolution.resolve_spec sound object vars next
  split
  · next r hr =>
    rw [hr] at spec
    intro u hu
    have resolved := isResolved_of_within hu spec.1
    refine ⟨?_, ?_, ?_⟩ <;> intros <;> rintro rfl <;> cases resolved
  · next e he =>
    rw [he] at spec
    exact spec

/-- A document with a reference to a merge that is open, and with one that has no target. -/
theorem Value.resolve_safe_example :
    let text := "a = 1, a.b = $\x7ba.c\x7d x, a.c = $\x7b?d\x7d, e = $\x7bf\x7d"
    ∃ v, ((parseText {} {} text).run.run []).1 = .ok v ∧ Document.IncludesNothing text
      ∧ match v.resolve { environment := none } 0 with
        | .ok r => ∀ u, u.Within r → (∀ p t, u ≠ Value.reference p t)
            ∧ (∀ p ps, u ≠ Value.concat p ps) ∧ ∀ p k ls, u ≠ Value.merge p k ls
        | .error e => (∃ o fault, e = .wrongType o fault)
            ∨ (∃ o fault, e = .unresolved o fault) ∧ v.HasMandatory := by
  intro text
  obtain ⟨v, parsed, alone⟩ := Document.exists_parsed {} (by decide +kernel :
    (Document.readAlone text).toOption.any (·.fields?.isSome) = true)
  exact ⟨v, parsed, alone, v.resolve_safe parsed alone none 0⟩

end Hocon
