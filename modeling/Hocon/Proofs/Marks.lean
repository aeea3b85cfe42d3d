import Hocon.Proofs.Parts

/-!
# Marks tell nodes apart

A resolution recognises a node by its mark, so it has to be true that one mark belongs to one
node.  Nothing in a tree says so by itself: it is a fact about all trees that are around at one
time.  A `Table` is the register that no program keeps: it tells which node has which mark.  A
tree is `Known` if all its nodes are in the register under their own marks, and marking a tree
whose marked nodes are known makes the rest of it known in a larger register
(`exists_known_markFrom`).
-/

namespace Hocon

/-- Which node has which mark. -/
abbrev Table := Nat → Option Value

@[simp] theorem Provenance.origin_withMark (p : Provenance) (n : Nat) :
    (p.withMark n).origin = p.origin := rfl

namespace Value

/-- Whether the node is a reference or waits for one to be joined with its neighbours. -/
def isQuery : Value → Bool
  | reference _ _ => true
  | concat _ _ => true
  | _ => false

/-! ### Known trees -/

/-- All nodes of the tree are in the table. -/
inductive Known (g : Table) : Value → Prop
  | node {v : Value} {n : Nat} (mark : v.mark = some n) (entry : g n = some v)
      (parts : ∀ u ∈ v.parts, Known g u) : Known g v

/-- The nodes that have marks are in the table.  Whether references and concatenations may be
without marks is up to `queries`. -/
inductive Markable (queries : Prop) (g : Table) : Value → Prop
  | known {v : Value} (h : Known g v) : Markable queries g v
  | fresh {v : Value} (mark : v.mark = none) (query : v.isQuery = true → queries)
      (parts : ∀ u ∈ v.parts, Markable queries g u) : Markable queries g v

namespace Known

variable {g : Table} {u v w : Value}

theorem parts (h : Known g v) : ∀ u ∈ v.parts, Known g u := by
  cases h with
  | node _ _ parts => exact parts

theorem exists_mark (h : Known g v) : ∃ n, v.mark = some n ∧ g n = some v := by
  cases h with
  | node mark entry _ => exact ⟨_, mark, entry⟩

/-- The node with a mark is the one in the table. -/
theorem entry (h : Known g v) {n : Nat} (mark : v.mark = some n) : g n = some v := by
  obtain ⟨k, hk, hg⟩ := h.exists_mark
  cases hk.symm.trans mark
  exact hg

/-- One mark, one node. -/
theorem eq_of_mark (hv : Known g v) (hw : Known g w) (h : v.mark = w.mark) : v = w := by
  obtain ⟨n, hn, hg⟩ := hv.exists_mark
  exact Option.some.inj (hg.symm.trans (hw.entry (h ▸ hn)))

theorem mono {g' : Table} (le : ∀ n v, g n = some v → g' n = some v) (h : Known g v) :
    Known g' v := by
  induction h with
  | node mark entry _ ih => exact .node mark (le _ _ entry) ih

end Known

theorem Markable.parts {queries : Prop} {g : Table} {v : Value} (h : Markable queries g v) :
    ∀ u ∈ v.parts, Markable queries g u := by
  cases h with
  | known h => exact fun u hu => .known (h.parts u hu)
  | fresh _ _ parts => exact parts

theorem Markable.mono {queries : Prop} {g g' : Table} {v : Value}
    (le : ∀ n v, g n = some v → g' n = some v) (h : Markable queries g v) :
    Markable queries g' v := by
  induction h with
  | known h => exact .known (h.mono le)
  | fresh mark query _ ih => exact .fresh mark query ih

/-- A new node above nodes that are known or new. -/
theorem Markable.new {queries : Prop} {g : Table} {v : Value} (mark : v.mark = none)
    (query : v.isQuery = false) (parts : ∀ u ∈ v.parts, Markable queries g u) :
    Markable queries g v :=
  .fresh mark (fun h => absurd h (by simp [query])) parts

end Value

/-! ### Growing tables -/

/-- The table `g` with nodes added whose marks run from `next` to `next'`; no references and no
concatenations are added unless `queries` holds. -/
structure Table.Grows (queries : Prop) (g : Table) (next : Nat) (g' : Table) (next' : Nat) :
    Prop where
  keeps : ∀ n v, g n = some v → g' n = some v
  old : ∀ n v, g' n = some v → v.isQuery = true → queries ∨ g n = some v
  same : ∀ n, n < next → g' n = g n
  below : ∀ n v, g' n = some v → n < next'
  le : next ≤ next'

namespace Table.Grows

variable {queries : Prop} {g g' g'' : Table} {next next' next'' : Nat}

theorem refl (below : ∀ n v, g n = some v → n < next) : Grows queries g next g next where
  keeps _ _ h := h
  old _ _ h _ := .inr h
  same _ _ := rfl
  below := below
  le := Nat.le_refl _

theorem trans (h : Grows queries g next g' next') (h' : Grows queries g' next' g'' next'') :
    Grows queries g next g'' next'' where
  keeps n v hv := h'.keeps n v (h.keeps n v hv)
  old n v hv query := (h'.old n v hv query).elim .inl fun hv => h.old n v hv query
  same n lt := (h'.same n (Nat.lt_of_lt_of_le lt h.le)).trans (h.same n lt)
  below := h'.below
  le := Nat.le_trans h.le h'.le

theorem known (h : Grows queries g next g' next') {v : Value} (hv : v.Known g) : v.Known g' :=
  hv.mono h.keeps

theorem markable (h : Grows queries g next g' next') {v : Value} (hv : v.Markable queries g) :
    v.Markable queries g' :=
  hv.mono h.keeps

end Table.Grows

namespace Value

/-! ### Marking -/

theorem markFrom_of_mark {v : Value} {n : Nat} (h : v.mark = some n) (next : Nat) :
    v.markFrom next = (v, next) := by
  have marked : v.prov.isMarked = true := by
    rw [Provenance.isMarked, show v.prov.mark = some n from h]
    rfl
  cases v <;> rw [markFrom] <;> exact if_pos marked

theorem markFields_parts (next : Nat) (fs : Entries Value) :
    (markFields next fs).1.map (·.2) = (markItems next (fs.map (·.2))).1
      ∧ (markFields next fs).2 = (markItems next (fs.map (·.2))).2 := by
  induction fs generalizing next with
  | nil => exact ⟨rfl, rfl⟩
  | cons f fs ih =>
    obtain ⟨k, v⟩ := f
    have := ih (v.markFrom next).2
    simp only [markFields, List.map_cons, markItems]
    exact ⟨congrArg _ this.1, this.2⟩

/-- A node without a mark gets the first one, and its parts get the next ones. -/
theorem markFrom_of_no_mark {v : Value} (h : v.mark = none) (next : Nat) :
    (v.markFrom next).1.mark = some next
      ∧ (v.markFrom next).1.parts = (markItems (next + 1) v.parts).1
      ∧ (v.markFrom next).2 = (markItems (next + 1) v.parts).2
      ∧ (v.markFrom next).1.isQuery = v.isQuery := by
  have unmarked : ¬ v.prov.isMarked = true := by
    rw [Provenance.isMarked, show v.prov.mark = none from h]
    simp
  cases v with
  | object p c fs =>
    simp only [prov] at unmarked
    rw [markFrom, if_neg unmarked]
    exact ⟨rfl, (markFields_parts _ fs).1, (markFields_parts _ fs).2, rfl⟩
  | _ =>
    simp only [prov] at unmarked
    rw [markFrom, if_neg unmarked]
    exact ⟨rfl, rfl, rfl, rfl⟩

/-- Items are marked one after the other. -/
theorem exists_known_markItems {queries : Prop} {vs : List Value} {g : Table} {next : Nat}
    (mark : ∀ v ∈ vs, ∀ (g : Table) (next : Nat), (∀ n w, g n = some w → n < next) →
      v.Markable queries g →
      ∃ g', g.Grows queries next g' (v.markFrom next).2 ∧ (v.markFrom next).1.Known g')
    (below : ∀ n w, g n = some w → n < next) (hvs : ∀ v ∈ vs, v.Markable queries g) :
    ∃ g', g.Grows queries next g' (markItems next vs).2
      ∧ ∀ u ∈ (markItems next vs).1, u.Known g' := by
  induction vs generalizing g next with
  | nil => exact ⟨g, .refl below, nofun⟩
  | cons v vs ih =>
    obtain ⟨g', grows, known⟩ := mark v List.mem_cons_self g next below (hvs v List.mem_cons_self)
    obtain ⟨g'', grows', known'⟩ := ih (fun w hw => mark w (List.mem_cons_of_mem _ hw)) grows.below
      fun w hw => grows.markable (hvs w (List.mem_cons_of_mem _ hw))
    refine ⟨g'', grows.trans grows', fun u hu => ?_⟩
    rcases List.mem_cons.1 hu with rfl | hu
    · exact grows'.known known
    · exact known' u hu

/-- **Marking makes a tree known** if what it already has of marks is known. -/
theorem exists_known_markFrom {queries : Prop} (v : Value) (g : Table) (next : Nat)
    (below : ∀ n w, g n = some w → n < next) (hv : v.Markable queries g) :
    ∃ g', g.Grows queries next g' (v.markFrom next).2 ∧ (v.markFrom next).1.Known g' := by
  induction v using parts_induction generalizing g next with
  | node v ih =>
    cases hv with
    | known hv =>
      -- what is known already keeps its marks
      obtain ⟨n, hn, -⟩ := hv.exists_mark
      rw [markFrom_of_mark hn]
      exact ⟨g, .refl below, hv⟩
    | fresh mark query parts =>
      obtain ⟨mark', parts', next', query'⟩ := markFrom_of_no_mark mark next
      obtain ⟨g', grows, known⟩ := exists_known_markItems (g := g) ih
        (fun n w h => Nat.lt_succ_of_lt (below n w h) : ∀ n w, g n = some w → n < next + 1) parts
      -- the node itself comes on top of its parts
      have unused : g' next = none := by
        rw [grows.same next (Nat.lt_succ_self _)]
        cases h : g next with
        | none => rfl
        | some w => exact absurd (below next w h) (Nat.lt_irrefl _)
      have keeps (n : Nat) (w : Value) (h : g' n = some w) :
          (if n = next then some (v.markFrom next).1 else g' n) = some w := by
        rw [if_neg (by rintro rfl; simp [unused] at h), h]
      refine ⟨fun n => if n = next then some (v.markFrom next).1 else g' n, ?_, ?_⟩
      · rw [next']
        refine ⟨fun n w h => keeps n w (grows.keeps n w h), fun n w h query => ?_,
          fun n lt => ?_, fun n w h => ?_, Nat.le_of_succ_le grows.le⟩
        · split at h
          · cases h
            exact .inl (‹v.isQuery = true → queries› (query' ▸ query))
          · exact grows.old n w h query
        · simp only [Nat.ne_of_lt lt, if_false]
          exact grows.same n (Nat.lt_succ_of_lt lt)
        · split at h
          · next e => exact e ▸ grows.le
          · exact grows.below n w h
      · refine .node mark' (if_pos rfl) fun u hu => ?_
        rw [parts'] at hu
        exact (known u hu).mono keeps

/-! ### Trees on their own -/

/-- One mark, one node: there is a table that has all nodes of the tree which have marks. -/
def Coherent (v : Value) : Prop := ∃ g : Table, v.Markable True g

theorem mark_lt_freeMark {v : Value} {n : Nat} (h : v.mark = some n) : n < v.freeMark := by
  have above : n < freeMark.above v.prov := by
    rw [freeMark.above, show v.prov.mark = some n from h]
    exact Nat.lt_succ_self n
  cases v with
  | object | list | concat | merge => exact Nat.lt_of_lt_of_le above (Nat.le_max_left _ _)
  | _ => exact above

theorem freeMark_le_freeMarkOfItems {u : Value} {vs : List Value} (h : u ∈ vs) :
    u.freeMark ≤ freeMarkOfItems vs := by
  induction vs with
  | nil => cases h
  | cons v vs ih =>
    rw [freeMarkOfItems]
    rcases List.mem_cons.1 h with rfl | h
    · exact Nat.le_max_left _ _
    · exact Nat.le_trans (ih h) (Nat.le_max_right _ _)

theorem freeMarkOfFields_eq (fs : Entries Value) :
    freeMarkOfFields fs = freeMarkOfItems (fs.map (·.2)) := by
  induction fs with
  | nil => rfl
  | cons f fs ih => rw [freeMarkOfFields, ih]; rfl

theorem freeMark_le_of_mem_parts {u v : Value} (h : u ∈ v.parts) : u.freeMark ≤ v.freeMark := by
  have items := freeMark_le_freeMarkOfItems h
  cases v with
  | object p c fs =>
    rw [parts, ← freeMarkOfFields_eq] at items
    exact Nat.le_trans items (Nat.le_max_right _ _)
  | list | concat | merge => exact Nat.le_trans items (Nat.le_max_right _ _)
  | _ => cases h

/-- The nodes of a tree have marks below its first free one. -/
theorem Known.restrict {g : Table} {v : Value} {free : Nat} (h : Known g v) (le : v.freeMark ≤ free) :
    Known (fun n => if n < free then g n else none) v := by
  induction h with
  | node mark entry _ ih =>
    have lt := Nat.lt_of_lt_of_le (mark_lt_freeMark mark) le
    exact .node mark ((if_pos lt).trans entry) fun u hu =>
      ih u hu (Nat.le_trans (freeMark_le_of_mem_parts hu) le)

theorem Markable.restrict {queries : Prop} {g : Table} {v : Value} {free : Nat}
    (h : Markable queries g v) (le : v.freeMark ≤ free) :
    Markable queries (fun n => if n < free then g n else none) v := by
  induction h with
  | known h => exact .known (h.restrict le)
  | fresh mark query _ ih =>
    exact .fresh mark query fun u hu => ih u hu (Nat.le_trans (freeMark_le_of_mem_parts hu) le)

/-- A tree on its own needs no more marks than it has. -/
theorem Coherent.exists_table {v : Value} (h : v.Coherent) {next : Nat} (le : v.freeMark ≤ next) :
    ∃ g : Table, v.Markable True g ∧ ∀ n w, g n = some w → n < next := by
  obtain ⟨g, markable⟩ := h
  refine ⟨_, markable.restrict le, fun n w hw => ?_⟩
  split at hw
  · assumption
  · cases hw

/-! ### Marked trees are like the trees without marks -/

theorem length_markItems (next : Nat) (vs : List Value) :
    (markItems next vs).1.length = vs.length := by
  induction vs generalizing next with
  | nil => rfl
  | cons v vs ih => simp only [markItems, List.length_cons, ih]

theorem getElem?_markItems {next : Nat} {vs : List Value} {i : Nat} {v u : Value}
    (hv : vs[i]? = some v) (hu : (markItems next vs).1[i]? = some u) :
    ∃ n, u = (v.markFrom n).1 := by
  induction vs generalizing next i with
  | nil => simp at hv
  | cons w vs ih =>
    cases i with
    | zero =>
      simp only [List.getElem?_cons_zero, Option.some.injEq, markItems] at hv hu
      exact ⟨next, by rw [← hu, hv]⟩
    | succ i =>
      simp only [List.getElem?_cons_succ, markItems] at hv hu
      exact ih hv hu

theorem keys_markFields (next : Nat) (fs : Entries Value) :
    Entries.keys (markFields next fs).1 = Entries.keys fs := by
  induction fs generalizing next with
  | nil => rfl
  | cons f fs ih =>
    simp only [markFields, Entries.keys, List.map_cons] at ih ⊢
    rw [ih]

theorem get?_markFields {next : Nat} {fs : Entries Value} {k : String} {v u : Value}
    (hv : Entries.get? fs k = some v) (hu : Entries.get? (markFields next fs).1 k = some u) :
    ∃ n, u = (v.markFrom n).1 := by
  induction fs generalizing next with
  | nil => cases hv
  | cons f fs ih =>
    simp only [markFields, Entries.get?] at hv hu
    split at hv
    · next e =>
      simp only [e, if_true, Option.some.injEq] at hv hu
      exact ⟨next, by rw [← hu, hv]⟩
    · next e =>
      rw [if_neg e] at hu
      exact ih hv hu

theorem alike_markFrom (v : Value) (next : Nat) : v.Alike (v.markFrom next).1 := by
  induction v using parts_induction generalizing next with
  | node v ih =>
    cases v with
    | object p c fs =>
      rw [markFrom]
      split
      · exact .refl _
      · refine .object (p.origin_withMark next).symm c (by rw [keys_markFields]) fun k v u hv hu => ?_
        obtain ⟨n, rfl⟩ := get?_markFields hv hu
        exact ih v (mem_parts_of_mem_fields (Entries.mem_of_get? hv)) n
    | list p xs =>
      rw [markFrom]
      split
      · exact .refl _
      · refine .list (p.origin_withMark next).symm (length_markItems _ _).symm fun i v u hv hu => ?_
        obtain ⟨n, rfl⟩ := getElem?_markItems hv hu
        exact ih v (List.mem_of_getElem? hv) n
    | concat p xs =>
      rw [markFrom]
      split
      · exact .refl _
      · refine .concat (p.origin_withMark next).symm (length_markItems _ _).symm fun i v u hv hu => ?_
        obtain ⟨n, rfl⟩ := getElem?_markItems hv hu
        exact ih v (List.mem_of_getElem? hv) n
    | merge p k xs =>
      rw [markFrom]
      split
      · exact .refl _
      · refine .merge (p.origin_withMark next).symm k (length_markItems _ _).symm fun i v u hv hu => ?_
        obtain ⟨n, rfl⟩ := getElem?_markItems hv hu
        exact ih v (List.mem_of_getElem? hv) n
    | null p => rw [markFrom]; split <;> exact .null (by simp)
    | bool p b => rw [markFrom]; split <;> exact .bool (by simp) b
    | number p n t => rw [markFrom]; split <;> exact .number (by simp) n t
    | string p t q => rw [markFrom]; split <;> exact .string (by simp) t q
    | reference p r => rw [markFrom]; split <;> exact .reference (by simp) r

/-! ### Fresh marks -/

theorem le_markItems {vs : List Value} (h : ∀ v ∈ vs, ∀ n, n ≤ (v.markFrom n).2) (next : Nat) :
    next ≤ (markItems next vs).2 := by
  induction vs generalizing next with
  | nil => exact Nat.le_refl _
  | cons v vs ih =>
    obtain ⟨hv, hvs⟩ := List.forall_mem_cons.1 h
    exact Nat.le_trans (hv next) (ih hvs _)

theorem le_markFrom (v : Value) (next : Nat) : next ≤ (v.markFrom next).2 := by
  induction v using parts_induction generalizing next with
  | node v ih =>
    cases hm : v.mark with
    | some n => exact Nat.le_of_eq (congrArg Prod.snd (markFrom_of_mark hm next)).symm
    | none =>
      rw [(markFrom_of_no_mark hm next).2.2.1]
      exact Nat.le_of_succ_le (le_markItems ih _)

/-- Each of several items gets its marks from one that is not used yet. -/
theorem forall_mem_markItems {P : Value → Prop} {vs : List Value} {next : Nat}
    (h : ∀ v ∈ vs, ∀ n, next ≤ n → P (v.markFrom n).1) : ∀ u ∈ (markItems next vs).1, P u := by
  induction vs generalizing next with
  | nil => exact List.forall_mem_nil _
  | cons v vs ih =>
    obtain ⟨hv, hvs⟩ := List.forall_mem_cons.1 h
    refine List.forall_mem_cons.2 ⟨hv next (Nat.le_refl _), ih fun w hw n le => ?_⟩
    exact hvs w hw n (Nat.le_trans (le_markFrom v next) le)

theorem lt_markFrom {v : Value} (h : v.mark = none) (next : Nat) : next < (v.markFrom next).2 := by
  rw [(markFrom_of_no_mark h next).2.2.1]
  exact le_markItems (fun v _ n => le_markFrom v n) _

end Value

end Hocon
