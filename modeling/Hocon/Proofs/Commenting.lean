import Hocon.Proofs.Captions
import Hocon.Proofs.Occurring

/-!
# Comments of fields

The comments above a line belong to the field that starts on it.  Reading leads along the way to
the field (`Script.HasField`), and what it reads beside the way misses the path of the field: so
the scalar of the field gets where the steps lead, and stays there as it is.  Its own comments are
those that its key has, and nothing else on the line has any (`Headed`).  The main result is
`Document.parseText_comments`.
-/

namespace Hocon

namespace Document

open Value

/-! ### Where the field starts -/

/-- Behind items of the kinds in front, there is one with the comments, alone on its line. -/
def StartsBehind (comments : List String) (front : List TokenKind) (s : List Item) : Prop :=
  Headed comments (s.drop front.length)

theorem StartsBehind.tail {comments : List String} {kinds front : List TokenKind} {s r : List Item}
    (h : StartsBehind comments (kinds ++ front) (s ++ r)) (hs : s.map Item.kind = kinds) :
    StartsBehind comments front r := by
  subst hs
  rwa [StartsBehind, List.length_append, List.length_map, ← List.drop_drop, List.drop_left] at h

/-! ### What is read of items -/

/-- What is read has the property, and `r` is left. -/
def Brings {α : Type} {s : List Item} (x : Read α s) (r : List Item) (P : α → Prop) : Prop :=
  Gives x fun a => a.2.val = r ∧ P a.1

section

variable {α β : Type} {s r : List Item} {x : Read α s} {P Q : α → Prop}

theorem Brings.bind {f : α × Left s → Loading β} {R : β → Prop} (h : Brings x r P)
    (next : ∀ a le, P a → Gives (f ⟨a, r, le⟩) R) : Gives (x >>= f) R := by
  refine Gives.bind h ?_
  rintro ⟨a, q, le⟩ ⟨left, ha⟩
  obtain rfl : q = r := left
  exact next a le ha

theorem Brings.mono (h : Brings x r P) (le : ∀ {a}, P a → Q a) : Brings x r Q :=
  Gives.mono h fun _ ha => ⟨ha.1, le ha.2⟩

theorem Gives.of_pure {a : α} {P : α → Prop} (h : Gives (pure a) P) : P a := h [] a [] rfl

theorem Follows.brings {R : α → β → Prop} {y : Loading β} {S : β → Prop}
    (h : Follows (Leaves r R) x y) (given : Gives y S) : Brings x r fun a => ∃ b, R a b ∧ S b := by
  intro m a m' run
  obtain ⟨b, run', left, related⟩ := h.exists_ok run
  exact ⟨left, b, related, given m b m' run'⟩

end

/-- A place in a HOCON document whose origin has no comments of its own. -/
structure Context.Plain (c : Context) : Prop where
  inConf : c.InConf
  origin : c.origin.comments = []

variable {c : Context} {comments : List String} {scalar : Scalar} {P Q : Value → Prop}
  {steps : List TreeStep}

namespace Context.Plain

theorem place (h : c.Plain) : c.At c.answer (c.keys.reverse.flatMap Path.keys) :=
  ⟨h.inConf, rfl, rfl⟩

theorem enter (h : c.Plain) (key : Path) : (c.enter key).Plain :=
  ⟨⟨h.inConf.syn, h.inConf.stop⟩, h.origin⟩

theorem afterEquals (h : c.Plain) (afterEquals : Bool) :
    ({ c with afterEquals } : Context).Plain :=
  ⟨⟨h.inConf.syn, h.inConf.stop⟩, h.origin⟩

end Context.Plain

/-! ### Values beside each other -/

/-- A neighbour is read as one. -/
theorem brings_beside {term : Term} {kinds : List TokenKind} (h : Term.Written term kinds)
    (beside : term.Beside steps) (hc : c.Plain) {t : Item} {s : List Item}
    (hs : (t :: s).map Item.kind = kinds) (above : List String) (r : List Item) :
    Brings (readValue c t above (s ++ r)) r fun v =>
      v.isPiece = true ∧ v.Beside steps ∧ v.shift steps = term.shift steps := by
  refine (Follows.brings (written_readAs.ofTerm h hc.place hs above r) beside.gives_sense).mono ?_
  rintro v ⟨w, ⟨piece, same⟩, beside, shifted⟩
  exact ⟨piece, beside.sameTree same, (same.shift_eq steps).trans shifted⟩

theorem brings_besides {terms : Terms} {kinds : List TokenKind} (h : Terms.Written terms kinds)
    (beside : terms.Beside steps) (hc : c.Plain) {s r : List Item} (hs : s.map Item.kind = kinds)
    (hr : Complete r) (first : Bool) :
    Brings (readPieces c first (s ++ r)) r fun vs =>
      (∀ v ∈ vs, v.isPiece = true) ∧ ∀ v ∈ vs, v.Beside steps := by
  refine (Follows.brings (written_readAs.ofTerms h hc.place hs hr first)
    beside.gives_sense).mono ?_
  rintro vs ⟨ws, ⟨pieces, sames⟩, beside⟩
  refine ⟨pieces, fun v hv => ?_⟩
  obtain ⟨w, hw, same⟩ : ∃ w ∈ ws, v.SameTree w := by
    have there : v.unplaced ∈ ws.map unplaced := sames ▸ List.mem_map_of_mem hv
    obtain ⟨w, hw, eq⟩ := List.mem_map.1 there
    exact ⟨w, hw, eq.symm⟩
  exact (beside w hw).sameTree same

/-- Nothing is read where a value is complete. -/
theorem brings_noPieces (hc : c.Plain) {r : List Item} (hr : Complete r) (first : Bool) :
    Brings (readPieces c first r) r (· = []) := by
  have read := termsReadAs_nil hc.place (s := []) rfl hr first
  have sense : Gives (Terms.nil.sense c.answer (c.keys.reverse.flatMap Path.keys)) (· = []) := by
    rw [Terms.sense]
    exact .pure rfl
  refine (Follows.brings read sense).mono ?_
  rintro vs ⟨ws, ⟨-, same⟩, rfl⟩
  exact List.map_eq_nil_iff.1 same

/-- A term is read, and then those beside it. -/
theorem brings_readPieces {term : Term} {terms : Terms} {kinds kinds' : List TokenKind}
    (h : Term.Written term kinds) (h' : Terms.Written terms kinds') (hc : c.Plain)
    {s s' r : List Item} (hs : s.map Item.kind = kinds) (hs' : s'.map Item.kind = kinds')
    (hr : Complete r) (first : Bool) {R : List Value → Prop}
    (head : ∀ t, (t :: s.tail).map Item.kind = kinds → (first = true → t.comments = []) →
      Brings (readValue c t [] (s.tail ++ (s' ++ r))) (s' ++ r) Q)
    (tail : Brings (readPieces c false (s' ++ r)) r R) :
    Brings (readPieces c first (s ++ (s' ++ r))) r fun vs => ∃ v ws, vs = v :: ws ∧ Q v ∧ R ws := by
  obtain ⟨kind, rest, rfl, starts⟩ := h.exists_cons
  obtain ⟨t, s, rfl, ht, hs⟩ := List.map_eq_cons_iff.1 hs
  have continues : t.continuesValue = true := by rw [Item.continuesValue_eq, ht, starts]
  have front : checkFront c (s' ++ r) = pure () := by
    refine checkFront_eq hc.inConf fun u hu p kind => ?_
    cases s' with
    | nil =>
      have ends := hr u hu
      rw [kind] at ends
      cases ends
    | cons t' s' =>
      cases hu
      subst hs'
      have firm := firm_terms h' u.kind rfl
      rw [kind] at firm
      cases firm
  rw [List.cons_append, readPieces, if_pos continues]
  refine (head { t with comments := if first then [] else t.comments }
    (by rw [List.tail_cons, List.map_cons, hs, ← ht]) fun h => if_pos h).bind fun v le hv => ?_
  simp only [front, pure_bind]
  exact tail.bind fun vs le' hvs => .pure ⟨rfl, v, vs, rfl, hv, hvs⟩

/-- A value is what its pieces are joined to, with the comments above it. -/
theorem brings_readJoined (hc : c.Plain) {nls s r : List Item} (hn : LineEnds nls)
    (firm : Firm (s ++ r)) (above : List String)
    (pieces : Brings (readPieces c true (s ++ r)) r fun vs =>
      ∃ v, concatenate vs = .ok (some v) ∧ Q v) :
    Brings (readJoined c above (nls ++ (s ++ r))) r fun o =>
      ∃ v, o = some (withComments v (above ++ (c.front (s ++ r)).comments)) ∧ Q v := by
  have conf : c.syn ≠ .json := by
    rw [hc.inConf.syn]
    decide
  obtain ⟨le, skip⟩ := skipNewlines_eq hc.inConf hn firm
  rw [readJoined, skip]
  simp only [pure_bind, if_neg conf]
  refine pieces.bind ?_
  rintro vs le' ⟨v, joined, hv⟩
  rw [joined]
  exact .pure ⟨rfl, v, rfl, hv⟩

/-- What is read of the items `s` in front of `r` has the property: as a joined value, and for
itself if it is one term. -/
structure RowBrings (row : Row) (s r : List Item) (Q : Value → Prop) : Prop where
  joined : ∀ ⦃c : Context⦄, c.Plain → ∀ ⦃nls : List Item⦄, LineEnds nls → ∀ above,
    Brings (readJoined c above (nls ++ (s ++ r))) r fun o => ∃ v, o = some v ∧ Q v
  alone : ∀ ⦃term : Term⦄, row = .mk term .nil → ∀ ⦃c : Context⦄, c.Plain →
    ∀ ⦃t : Item⦄ ⦃u : List Item⦄, s = t :: u → ∀ above, Brings (readValue c t above (u ++ r)) r Q

/-- What a row means tells what is read of it. -/
theorem rowBrings_of_sense {row : Row} {kinds : List TokenKind} (h : Row.Written row kinds)
    {s r : List Item} (hs : s.map Item.kind = kinds) (hr : Complete r)
    (sense : ∀ answer place, Gives (row.sense answer place) Q)
    (alone : ∀ term, row = .mk term .nil → ∀ answer place, Gives (term.sense answer place) Q)
    (labels : ∀ {v w : Value}, v.SameTree w → Q w → Q v) : RowBrings row s r Q where
  joined c hc nls hn above := by
    have read := (written_readAs.ofRow h).joined hc.place hn hs hr above
    refine (Follows.brings read (sense _ _)).mono ?_
    rintro _ ⟨w, ⟨v, rfl, same⟩, hw⟩
    exact ⟨v, rfl, labels same hw⟩
  alone term single c hc t u split above := by
    have read := (written_readAs.ofRow h).alone term single hc.place (split ▸ hs) above r
    refine (Follows.brings read (alone term single _ _)).mono ?_
    rintro v ⟨w, ⟨-, same⟩, hw⟩
    exact labels same hw

/-- Whatever stands there, something is read of it. -/
theorem rowBrings_any {row : Row} {kinds : List TokenKind} (h : Row.Written row kinds)
    {s r : List Item} (hs : s.map Item.kind = kinds) (hr : Complete r) :
    RowBrings row s r fun _ => True :=
  rowBrings_of_sense h hs hr (fun _ _ _ _ _ _ => trivial) (fun _ _ _ _ _ _ _ _ => trivial)
    fun _ _ => trivial

/-- A value that does not define a path is read as one that misses it. -/
theorem rowBrings_misses {row : Row} {path : List String} (misses : Row.Misses row path)
    (onward : path ≠ []) {kinds : List TokenKind} (h : Row.Written row kinds) {s r : List Item}
    (hs : s.map Item.kind = kinds) (hr : Complete r) : RowBrings row s r (·.Misses path) := by
  refine rowBrings_of_sense h hs hr (fun _ _ => misses.gives_sense onward) ?alone
    fun same missing => missing.sameTree same
  rintro term rfl _ _
  cases misses with
  | mk head => exact head.gives_sense onward

/-! ### Fields -/

/-- The fields are those of `f` with such a value put over them at the key. -/
def Puts (f : Fields) (key : Path) (Q : Value → Prop) (g : Fields) : Prop :=
  ∃ v, Q v ∧ g.entries = includeFields f.entries [(key.first, nest v key.rest)]

theorem puts_putField (hc : c.Plain) (f : Fields) (t : Item) {key : Path} {v : Value} (hv : Q v)
    (afterEquals : Bool) {s r : List Item} (le : r.length ≤ s.length) :
    Gives (do
        let g ← liftM (do
          let entries ← putField c f.entries t key v
          return { f with entries, lastKey := some key, lastAfterEquals := afterEquals } :
            Except Error Fields)
        pure (g, (⟨r, le⟩ : Left s)))
      fun a => a.2.val = r ∧ Puts f key Q a.1 := by
  rw [putField_eq hc.inConf.syn]
  exact .pure ⟨rfl, v, hv, rfl⟩

section

variable {key : Path} {t u : Item} {before nls s r : List Item}
  (spelled : Path.ofTokens? ((t :: before).map Item.kind) = .ok key) (hnls : LineEnds nls)

include spelled hnls

/-- A field with a sign. -/
theorem brings_readField_sign (hc : c.Plain) {grows : Bool} (sign : WritesSign grows u.kind)
    (value : ∀ c' : Context, c'.Plain →
      Brings (readFieldValue c' (t.comments ++ u.comments) s) r Q) (f : Fields) :
    Brings (readField c f t (before ++ (nls ++ u :: s))) r
      (Puts f key fun v => grows = false → Q v) := by
  obtain ⟨le, keyed⟩ := readKey_written hc.inConf spelled (stops_link hnls sign.stops s)
  obtain ⟨le', skip⟩ := skipNewlines_eq hc.inConf hnls (.cons sign.stops.2 s)
  have read := value _ ((hc.enter key).afterEquals (c.afterEquals || u.kind.isEquals))
  rw [readField]
  simp only [keyed, pure_bind, skip]
  generalize hu : u.kind = kind at sign read ⊢
  cases sign with
  | colon | equals =>
    simp only [hu, hc.inConf.syn, isKeySeparator]
    exact read.bind fun v le hv => puts_putField hc f t (fun _ => hv) _ _
  | plusEquals =>
    simp only [hu, hc.inConf.syn, isKeySeparator]
    exact read.bind fun v le hv => .after fun v' => puts_putField hc f t nofun _ _

/-- A field with an object and no sign. -/
theorem brings_readField_object (hc : c.Plain) (hu : u.kind = .openBrace)
    (value : ∀ c' : Context, c'.Plain → Brings (readValue c' u t.comments s) r Q) (f : Fields) :
    Brings (readField c f t (before ++ (nls ++ u :: s))) r (Puts f key Q) := by
  have stops : u.kind.isPiece = false ∧ standsFirm u.kind = true := hu ▸ ⟨rfl, rfl⟩
  obtain ⟨le, keyed⟩ := readKey_written hc.inConf spelled (stops_link hnls stops s)
  obtain ⟨le', skip⟩ := skipNewlines_eq hc.inConf hnls (.cons stops.2 s)
  rw [readField]
  simp only [keyed, pure_bind, skip, hu, hc.inConf.syn]
  exact (value _ (hc.enter key)).bind fun v le hv => puts_putField hc f t hv _ _

end

theorem brings_readFieldValue {above : List String} {s r : List Item}
    (joined : Brings (readJoined c above s) r fun o => ∃ v, o = some v ∧ Q v) :
    Brings (readFieldValue c above s) r Q := by
  rw [readFieldValue]
  refine joined.bind ?_
  rintro _ le ⟨v, rfl, hv⟩
  exact .pure ⟨rfl, hv⟩

/-- A field with any value. -/
theorem brings_readField (hc : c.Plain) {key : Path} {grows : Bool} {row : Row}
    {link kinds : List TokenKind} (hlink : WritesLink grows row link) (hrow : Row.Written row kinds)
    {t : Item} {before front value r : List Item}
    (spelled : Path.ofTokens? ((t :: before).map Item.kind) = .ok key)
    (hfront : front.map Item.kind = link) (hvalue : value.map Item.kind = kinds)
    (reads : RowBrings row value r Q) (f : Fields) :
    Brings (readField c f t (before ++ (front ++ (value ++ r)))) r
      (Puts f key fun v => grows = false → Q v) := by
  cases hlink with
  | sign m n _ sign =>
    obtain ⟨nls, signs, rfl, hnls, hsigns⟩ := List.map_eq_append_iff.1 hfront
    obtain ⟨u, nls', rfl, rfl, hnls'⟩ := List.map_eq_cons_iff.1 hsigns
    rw [List.append_assoc, List.cons_append]
    exact brings_readField_sign spelled (lineEnds_of_kinds hnls) hc sign (fun c' hc' =>
      brings_readFieldValue (reads.joined hc' (lineEnds_of_kinds hnls') _)) f
  | object m body =>
    obtain ⟨inside, rfl⟩ := hrow.alone.openBrace
    obtain ⟨u, value, rfl, hu, -⟩ := List.map_eq_cons_iff.1 hvalue
    refine (brings_readField_object spelled (lineEnds_of_kinds hfront) hc hu (fun c' hc' =>
      reads.alone rfl hc' rfl _) f).mono ?_
    rintro g ⟨v, hv, eq⟩
    exact ⟨v, fun _ => hv, eq⟩

/-! ### Objects -/

/-- Such fields, as an object, have nothing at the path. -/
def FieldsMiss (fs : Entries Value) (path : List String) : Prop :=
  ∀ p, (object p false fs).Misses path

/-- Such fields, as an object, have a node with the property where the steps lead. -/
def FieldsBear (P : Value → Prop) (fs : Entries Value) (steps : List TreeStep) : Prop :=
  ∀ p, (object p false fs).Bears P steps

section

variable {f g : Fields} {key : Path} {first : String} {path : List String}

theorem FieldsMiss.puts (h : FieldsMiss f.entries path)
    (put : Puts f key (fun v => (nest v key.keys).Misses path) g) : FieldsMiss g.entries path := by
  obtain ⟨v, hv, eq⟩ := put
  exact fun p => eq ▸ (h p).includeField hv

theorem FieldsBear.puts (h : FieldsBear P f.entries (.field first :: steps))
    (put : Puts f key (fun v => (nest v key.keys).Misses (first :: leadingKeys steps)) g) :
    FieldsBear P g.entries (.field first :: steps) := by
  obtain ⟨v, hv, eq⟩ := put
  exact fun p => eq ▸ (h p).includeField hv

theorem FieldsMiss.puts_bears (h : FieldsMiss f.entries (first :: leadingKeys steps))
    (put : Puts f key (fun v => (nest v key.keys).Bears P (.field first :: steps)) g) :
    FieldsBear P g.entries (.field first :: steps) := by
  obtain ⟨v, hv, eq⟩ := put
  exact fun p => eq ▸ hv.includedField (h p)

end

/-- The items of a field, and of what stands behind it. -/
theorem exists_items_of_field {key : Path} {keys link kinds gap rest : List TokenKind}
    (hkey : WritesKey key keys) {s : List Item}
    (hs : s.map Item.kind = keys ++ (link ++ (kinds ++ (gap ++ rest)))) :
    ∃ u before front value between more,
      s = u :: (before ++ (front ++ (value ++ (between ++ more))))
      ∧ (u :: before).map Item.kind = keys ∧ front.map Item.kind = link
      ∧ value.map Item.kind = kinds ∧ between.map Item.kind = gap ∧ more.map Item.kind = rest := by
  obtain ⟨named, s, rfl, hnamed, hs⟩ := List.map_eq_append_iff.1 hs
  obtain ⟨front, s, rfl, hfront, hs⟩ := List.map_eq_append_iff.1 hs
  obtain ⟨value, s, rfl, hvalue, hs⟩ := List.map_eq_append_iff.1 hs
  obtain ⟨between, more, rfl, hbetween, hmore⟩ := List.map_eq_append_iff.1 hs
  obtain ⟨kind, others, rfl, -, -⟩ := hkey.exists_cons
  obtain ⟨u, before, rfl, -, -⟩ := List.map_eq_cons_iff.1 hnamed
  exact ⟨u, before, front, value, between, more, rfl, hnamed, hfront, hvalue, hbetween, hmore⟩

/-- A field is read, and then what stands behind it. -/
theorem brings_readFields {key : Path} {keys gap rest : List TokenKind} {body : Body}
    (hkey : WritesKey key keys) (hgap : WritesGap body.isNil gap) (hbody : Body.Written body rest)
    (hc : c.Plain) {braced : Bool} {f : Fields} {nls before s between more t r : List Item}
    {u : Item} (hn : LineEnds nls) (hkeys : (u :: before).map Item.kind = keys)
    (hbetween : between.map Item.kind = gap) (hmore : more.map Item.kind = rest)
    (closes : Closes braced t r) {R : Fields → Prop} {S : Entries Value → Prop}
    (field : Brings (readField c f u (before ++ (s ++ (between ++ (more ++ t)))))
      (between ++ (more ++ t)) R)
    (behind : ∀ g nls, R g → LineEnds nls → ∀ after,
      Brings (readFields c braced { g with afterSeparator := after } (nls ++ (more ++ t))) r S) :
    Brings (readFields c braced f (nls ++ (u :: (before ++ (s ++ (between ++ more))) ++ t))) r
      S := by
  obtain ⟨kind, others, rfl, piece, noInclude⟩ := hkey.exists_cons
  obtain ⟨rfl, -⟩ := List.cons.inj hkeys
  have opened : u.kind ≠ .closeBrace := by
    intro closed
    rw [closed] at piece
    cases piece
  obtain ⟨le, skip⟩ := skipNewlines_eq hc.inConf hn
    (.cons (standsFirm_of_isPiece piece) (before ++ (s ++ (between ++ (more ++ t)))))
  have assoc : nls ++ (u :: (before ++ (s ++ (between ++ more))) ++ t)
      = nls ++ u :: (before ++ (s ++ (between ++ (more ++ t)))) := by
    simp only [List.cons_append, List.append_assoc]
  rw [assoc, readFields_eq braced f skip opened, readMember, noInclude, Bool.false_and,
    if_neg Bool.false_ne_true]
  refine field.bind fun g le hg => ?_
  refine Brings.bind (P := S) ?_ fun fs le hfs => .pure ⟨rfl, hfs⟩
  generalize last : body.isNil = isLast at hgap
  cases hgap with
  | separator _ h =>
    obtain ⟨nls, lt, found, hn⟩ :=
      readSeparator_found hc.inConf h hbetween (firm_append (firm_body hbody) hmore closes.firm)
    rw [found, pure_bind, readBehind]
    exact (behind g nls hg hn true).bind fun fs le hfs => .pure ⟨rfl, hfs⟩
  | nothing =>
    cases body with
    | field | inclusion => cases last
    | nil =>
      -- nothing is behind the field, and so what is read behind it are the fields so far
      cases hbody
      cases List.map_eq_nil_iff.1 hbetween
      cases List.map_eq_nil_iff.1 hmore
      obtain ⟨le', closing⟩ := readFields_closing hc.inConf lineEnds_nil closes g
      have so_far : Brings (readFields c braced g ([] ++ t)) r S :=
        behind g [] hg lineEnds_nil g.afterSeparator
      rw [closing] at so_far
      have hfs : S g.entries := so_far.of_pure.2
      obtain ⟨le'', missing⟩ := readSeparator_missing hc.inConf closes.firm
      rw [List.nil_append, List.nil_append, missing, pure_bind]
      cases closes with
      | stop =>
        rw [readBehind, if_neg Bool.false_ne_true]
        exact .pure ⟨rfl, hfs⟩
      | brace ht =>
        rw [readBehind]
        simp only [ht, if_true]
        exact .pure ⟨rfl, hfs⟩

/-- A field that does not define the path puts something elsewhere. -/
theorem puts_misses (hc : c.Plain) {key : Path} {grows : Bool} {row : Row} {body : Body}
    {path : List String} (misses : Body.Misses (.field key grows row body) path)
    {keys link kinds : List TokenKind} (hkey : WritesKey key keys)
    (hlink : WritesLink grows row link) (hrow : Row.Written row kinds) {u : Item}
    {before front value r : List Item} (hkeys : (u :: before).map Item.kind = keys)
    (hfront : front.map Item.kind = link) (hvalue : value.map Item.kind = kinds) (hr : Complete r)
    (f : Fields) :
    Brings (readField c f u (before ++ (front ++ (value ++ r)))) r
      (Puts f key fun v => (nest v key.keys).Misses path) := by
  have spelled : Path.ofTokens? ((u :: before).map Item.kind) = .ok key := hkeys ▸ hkey.path
  cases misses with
  | apart h =>
    have reads := rowBrings_any hrow hvalue hr
    refine (brings_readField hc hlink hrow spelled hfront hvalue reads f).mono ?_
    rintro g ⟨v, -, eq⟩
    exact ⟨v, misses_nest_of_diverge h v, eq⟩
  | along onward head =>
    have reads := rowBrings_misses head onward hrow hvalue hr
    refine (brings_readField hc hlink hrow spelled hfront hvalue reads f).mono ?_
    rintro g ⟨v, hv, eq⟩
    exact ⟨v, (hv rfl).nest key.keys, eq⟩

/-- **Fields that do not define the path leave alone what is there**, one after the other. -/
theorem brings_keep : ∀ {body : Body} {kinds : List TokenKind} {first : String},
    Body.Misses body (first :: leadingKeys steps) → Body.Written body kinds →
    ∀ {c : Context}, c.Plain → ∀ {braced : Bool} {f : Fields} {nls s t r : List Item},
    LineEnds nls → s.map Item.kind = kinds → Closes braced t r →
    FieldsBear P f.entries (.field first :: steps) →
    Brings (readFields c braced f (nls ++ (s ++ t))) r
      fun fs => FieldsBear P fs (.field first :: steps)
  | .nil, _, _, _, .nil, _, hc, _, f, _, _, _, _, hn, hs, closes, bears => by
    cases List.map_eq_nil_iff.1 hs
    obtain ⟨le, closing⟩ := readFields_closing hc.inConf hn closes f
    rw [List.nil_append, closing]
    exact .pure ⟨rfl, bears⟩
  | .field key grows row body, _, _, misses, .field hkey hlink hrow hgap hbody, _, hc, _, f, _, _,
      _, _, hn, hs, closes, bears => by
    obtain ⟨u, before, front, value, between, more, rfl, hkeys, hfront, hvalue, hbetween, hmore⟩ :=
      exists_items_of_field hkey hs
    have complete := complete_fields hgap hbody hbetween hmore closes
    have field := puts_misses hc misses hkey hlink hrow hkeys hfront hvalue complete f
    rw [← List.append_assoc front] at field ⊢
    refine brings_readFields hkey hgap hbody hc hn hkeys hbetween hmore closes field
      fun g nls put hn after => ?_
    exact brings_keep misses.tail hbody hc hn hmore closes (bears.puts put)

/-! ### The scalar -/

/-- The scalar, with an origin of just these comments. -/
def Captioned (comments : List String) (scalar : Scalar) (v : Value) : Prop :=
  ∃ o, v = scalar.value o ∧ o.comments = comments

theorem Captioned.withComments {v : Value} (h : Captioned comments scalar v) (above : List String) :
    Captioned (above ++ comments) scalar (withComments v above) := by
  obtain ⟨o, rfl, rfl⟩ := h
  refine ⟨o.prependComments above, ?_, rfl⟩
  unfold Document.withComments
  cases above with
  | nil => rfl
  | cons comment above => cases scalar with
    | literal l => cases l <;> rfl
    | bare text => rfl

/-- A scalar takes the comments of its item, behind those given. -/
theorem brings_scalar (hc : c.Plain) {t : Item} (ht : t.kind = scalar.kind) (above : List String)
    (r : List Item) :
    Brings (readValue c t above r) r (Captioned (above ++ t.comments) scalar) := by
  have own : Captioned [] scalar (scalar.value (c.originAt t.line)) := ⟨_, rfl, hc.origin⟩
  have captioned := own.withComments (above ++ t.comments)
  rw [List.append_nil] at captioned
  rw [readValue]
  cases scalar with
  | literal l =>
    rw [show t.kind = .value l from ht]
    exact .pure ⟨rfl, captioned⟩
  | bare text =>
    rw [show t.kind = .bare text from ht]
    exact .pure ⟨rfl, captioned⟩

/-- A scalar on its own takes the comments given, if its item has none. -/
theorem brings_readJoined_scalar (hc : c.Plain) {t : Item} (ht : t.kind = scalar.kind)
    (alone : t.comments = []) {r : List Item} (hr : Complete r) (above : List String) :
    Brings (readJoined c above (t :: r)) r fun o => ∃ v, o = some v ∧ Captioned above scalar v := by
  have kinds : [t].map Item.kind = [scalar.kind] := by rw [← ht]; rfl
  have pieces := brings_readPieces (Q := Captioned [] scalar) scalar.written .nil hc kinds
    List.map_nil hr true
    (fun u hu none => by
      have read := brings_scalar hc (List.cons.inj hu).1 [] r
      rwa [none rfl] at read)
    (brings_noPieces hc hr false)
  have firm : Firm (t :: r) := .cons (ht ▸ standsFirm_of_startsTerm scalar.startsTerm) r
  refine (brings_readJoined (s := [t]) (Q := Captioned [] scalar) hc lineEnds_nil firm above
    (pieces.mono ?joined)).mono ?above
  case joined =>
    rintro _ ⟨v, ws, rfl, hv, rfl⟩
    exact ⟨v, rfl, hv⟩
  case above =>
    rintro _ ⟨v, rfl, hv⟩
    have captioned := hv.withComments (above ++ t.comments)
    rw [alone, List.append_nil, List.append_nil] at captioned
    exact ⟨_, rfl, by rwa [show (c.front ([t] ++ r)).comments = [] from alone, List.append_nil]⟩

/-! ### Along the way to the field -/

section

variable (comments : List String) (scalar : Scalar)

/-- Items of these kinds, of which the field starts behind those in front, are read as one value
that has the scalar where the steps lead. -/
def ValueBears (kinds front : List TokenKind) (steps : List TreeStep) : Prop :=
  ∀ ⦃c : Context⦄, c.Plain → ∀ ⦃t : Item⦄ ⦃s : List Item⦄, (t :: s).map Item.kind = kinds →
    ∀ r, StartsBehind comments front (t :: (s ++ r)) → ∀ above,
    Brings (readValue c t above (s ++ r)) r fun v =>
      v.isPiece = true ∧ v.Bears (Captioned comments scalar) steps

/-- The same of values that stand beside each other. -/
def ValuesBear (kinds front : List TokenKind) (steps : List TreeStep) : Prop :=
  ∀ ⦃c : Context⦄, c.Plain → ∀ ⦃s r : List Item⦄, s.map Item.kind = kinds → Complete r →
    StartsBehind comments front (s ++ r) → ∀ first,
    Brings (readPieces c first (s ++ r)) r fun vs =>
      (∀ v ∈ vs, v.isPiece = true) ∧ PiecesBear (Captioned comments scalar) vs steps

/-- The same of a whole value. -/
def RowBears (row : Row) (kinds front : List TokenKind) (steps : List TreeStep) : Prop :=
  ∀ ⦃s r : List Item⦄, s.map Item.kind = kinds → Complete r → StartsBehind comments front (s ++ r) →
    RowBrings row s r (·.Bears (Captioned comments scalar) steps)

/-- Such values, as a list, have a node with the property where the steps lead. -/
def ItemsBear (P : Value → Prop) (vs : List Value) (steps : List TreeStep) : Prop :=
  ∀ p, (list p vs).Bears P steps

/-- The same of the items of a list, at its front as well as behind a separator. -/
def RowsBear (kinds front : List TokenKind) (steps : List TreeStep) : Prop :=
  ∀ ⦃c : Context⦄, c.Plain → ∀ ⦃nls s : List Item⦄ ⦃t : Item⦄, LineEnds nls →
    s.map Item.kind = kinds → t.kind = .closeBracket → ∀ r,
    StartsBehind comments front (s ++ t :: r) →
    Brings (readList c (nls ++ (s ++ t :: r))) r
      (ItemsBear (Captioned comments scalar) · steps) ∧
    ∀ s' lt, readSeparator c s' = pure (.found ⟨nls ++ (s ++ t :: r), lt⟩) →
      Brings (readItems c s') r (ItemsBear (Captioned comments scalar) · steps)

/-- The same of fields, put over those that miss the path. -/
def BodyBears (kinds front : List TokenKind) (steps : List TreeStep) : Prop :=
  ∀ ⦃c : Context⦄, c.Plain → ∀ ⦃braced : Bool⦄ ⦃f : Fields⦄ ⦃nls s t r : List Item⦄,
    LineEnds nls → s.map Item.kind = kinds → Closes braced t r →
    StartsBehind comments front (s ++ t) → FieldsMiss f.entries (leadingKeys steps) →
    Brings (readFields c braced f (nls ++ (s ++ t))) r
      (FieldsBear (Captioned comments scalar) · steps)

end

section

variable {kinds kinds' gap rest front : List TokenKind}

/-- The items between brackets, behind line ends. -/
theorem exists_items_of_brackets {n : Nat} {opening closing : TokenKind} {t : Item}
    {s : List Item}
    (hs : (t :: s).map Item.kind = opening :: (newlines n ++ (kinds ++ [closing]))) :
    ∃ nls inner u, s = nls ++ (inner ++ [u]) ∧ t.kind = opening ∧ LineEnds nls
      ∧ inner.map Item.kind = kinds ∧ u.kind = closing
      ∧ ∀ front r, StartsBehind comments (opening :: (newlines n ++ front)) (t :: (s ++ r)) →
        StartsBehind comments front (inner ++ u :: r) := by
  obtain ⟨ht, hs⟩ := List.cons_eq_cons.1 hs
  obtain ⟨nls, s', rfl, hnls, hs'⟩ := List.map_eq_append_iff.1 hs
  obtain ⟨inner, close, rfl, hinner, hclose⟩ := List.map_eq_append_iff.1 hs'
  obtain ⟨u, nothing, rfl, hu, hnothing⟩ := List.map_eq_cons_iff.1 hclose
  cases List.map_eq_nil_iff.1 hnothing
  refine ⟨nls, inner, u, rfl, ht, lineEnds_of_kinds hnls, hinner, hu, fun front r starts => ?_⟩
  have behind : StartsBehind comments (newlines n ++ front) (nls ++ (inner ++ u :: r)) := by
    rw [List.append_assoc, List.append_assoc] at starts
    exact starts
  exact behind.tail hnls

theorem valueBears_object (n : Nat) {first : String}
    (h : BodyBears comments scalar kinds front (.field first :: steps)) :
    ValueBears comments scalar (.openBrace :: (newlines n ++ (kinds ++ [.closeBrace])))
      (.openBrace :: (newlines n ++ front)) (.field first :: steps) := by
  intro c hc t s hs r starts above
  obtain ⟨nls, inner, u, rfl, ht, hn, hinner, hu, inside⟩ := exists_items_of_brackets hs
  have read := h hc (f := {}) hn hinner (.brace hu r) (inside front r starts)
    fun p => misses_nil (List.cons_ne_nil _ _)
  rw [List.append_assoc, List.append_assoc, readValue]
  simp only [ht]
  exact read.bind fun fs le bears =>
    .pure ⟨rfl, isPiece_withComments _ _, (bears _).withComments _⟩

theorem valueBears_list (n : Nat) {i : Nat}
    (h : RowsBear comments scalar kinds front (.item i :: steps)) :
    ValueBears comments scalar (.openBracket :: (newlines n ++ (kinds ++ [.closeBracket])))
      (.openBracket :: (newlines n ++ front)) (.item i :: steps) := by
  intro c hc t s hs r starts above
  obtain ⟨nls, inner, u, rfl, ht, hn, hinner, hu, inside⟩ := exists_items_of_brackets hs
  have read := (h hc hn hinner hu r (inside front r starts)).1
  rw [List.append_assoc, List.append_assoc, readValue]
  simp only [ht]
  exact read.bind fun vs le bears =>
    .pure ⟨rfl, isPiece_withComments _ _, (bears _).withComments _⟩

/-- What starts a value does not matter to where the field in it starts. -/
theorem StartsBehind.swap {kind : TokenKind} {t u : Item} {s : List Item}
    (h : StartsBehind comments (kind :: front) (t :: s)) :
    StartsBehind comments (kind :: front) (u :: s) := h

theorem valuesBear_head {term : Term} {terms : Terms} {kind : TokenKind} {inside : List TokenKind}
    (h : Term.Written term kinds) (h' : Terms.Written terms kinds')
    (beside : terms.Beside steps) (opens : front = kind :: inside)
    (head : ValueBears comments scalar kinds front steps) :
    ValuesBear comments scalar (kinds ++ kinds') front steps := by
  intro c hc s r hs hr starts first
  obtain ⟨s, s', rfl, hs, hs'⟩ := List.map_eq_append_iff.1 hs
  rw [List.append_assoc] at starts ⊢
  subst opens
  refine (brings_readPieces h h' hc hs hs' hr first (fun t ht _ => head hc ht _ ?_ [])
    (brings_besides h' beside hc hs' hr false)).mono ?_
  · -- the comments of the first item go to the joined value, but the field is behind its bracket
    cases s with
    | nil =>
      obtain ⟨_, _, rfl, -⟩ := h.exists_cons
      cases hs
    | cons u s => exact starts.swap
  · rintro _ ⟨v, ws, rfl, ⟨piece, bears⟩, pieces, neighbours⟩
    exact ⟨List.forall_mem_cons.2 ⟨piece, pieces⟩, .head bears neighbours⟩

theorem valuesBear_tail {term : Term} {terms : Terms} (h : Term.Written term kinds)
    (h' : Terms.Written terms kinds') (beside : term.Beside steps)
    (tail : ValuesBear comments scalar kinds' front steps) :
    ValuesBear comments scalar (kinds ++ kinds') (kinds ++ front) (term.shift steps) := by
  intro c hc s r hs hr starts first
  obtain ⟨s, s', rfl, hs, hs'⟩ := List.map_eq_append_iff.1 hs
  rw [List.append_assoc] at starts ⊢
  refine (brings_readPieces h h' hc hs hs' hr first
    (fun t ht _ => brings_beside h beside hc ht [] (s' ++ r))
    (tail hc hs' hr (starts.tail hs) false)).mono ?_
  rintro _ ⟨v, ws, rfl, ⟨piece, neighbour, shifted⟩, pieces, bears⟩
  exact ⟨List.forall_mem_cons.2 ⟨piece, pieces⟩, shifted ▸ .tail neighbour bears⟩

theorem rowBears_mk {term : Term} {terms : Terms} {step : TreeStep}
    (h : Terms.Written (.cons term terms) kinds)
    (values : ValuesBear comments scalar kinds front (step :: steps))
    (alone : terms = .nil → ValueBears comments scalar kinds front (step :: steps)) :
    RowBears comments scalar (.mk term terms) kinds front (step :: steps) := by
  intro s r hs hr starts
  refine ⟨fun c hc nls hn above => ?joined, ?alone⟩
  case joined =>
    have firm : Firm (s ++ r) := by
      cases h with
      | cons head =>
        obtain ⟨kind, rest, rfl, startsTerm⟩ := head.exists_cons
        obtain ⟨t, s, rfl, ht, -⟩ := List.map_eq_cons_iff.1 hs
        exact .cons (ht ▸ standsFirm_of_startsTerm startsTerm) (s ++ r)
    have pieces : Brings (readPieces c true (s ++ r)) r fun vs =>
        ∃ v, concatenate vs = .ok (some v) ∧ v.Bears (Captioned comments scalar) (step :: steps) :=
      (values hc hs hr starts true).mono fun both => both.2.concatenate both.1
    refine (brings_readJoined hc hn firm above pieces).mono ?_
    rintro _ ⟨v, rfl, bears⟩
    exact ⟨_, rfl, bears.withComments _⟩
  case alone =>
    rintro _ ⟨⟩ c hc t u rfl above
    exact (alone rfl hc hs r starts above).mono fun both => both.2

/-- An item is read, and then what stands behind it. -/
theorem brings_items {nls s behind r : List Item} {R : List Value → Prop}
    (item : Brings (readJoined c [] (nls ++ (s ++ behind))) behind fun o => ∃ v, o = some v ∧ Q v)
    (more : Brings (readItems c behind) r R) :
    Brings (readList c (nls ++ (s ++ behind))) r (fun vs => ∃ v ws, vs = v :: ws ∧ Q v ∧ R ws) ∧
    ∀ s' lt, readSeparator c s' = pure (.found ⟨nls ++ (s ++ behind), lt⟩) →
      Brings (readItems c s') r fun vs => ∃ v ws, vs = v :: ws ∧ Q v ∧ R ws := by
  refine ⟨?_, fun s' lt found => ?_⟩
  · rw [readList]
    refine item.bind ?_
    rintro _ le ⟨v, rfl, hv⟩
    exact more.bind fun ws le' hws => .pure ⟨rfl, v, ws, rfl, hv, hws⟩
  · rw [readItems, found, pure_bind]
    refine item.bind ?_
    rintro _ le ⟨v, rfl, hv⟩
    exact more.bind fun ws le' hws => .pure ⟨rfl, v, ws, rfl, hv, hws⟩

theorem rowsBear_head {row : Row} {rows : Rows} (hgap : WritesGap rows.isNil gap)
    (hrows : Rows.Written rows rest) (head : RowBears comments scalar row kinds front steps) :
    RowsBear comments scalar (kinds ++ (gap ++ rest)) front (.item 0 :: steps) := by
  intro c hc nls s t hn hs ht r starts
  obtain ⟨s, behind, rfl, hkinds, hbehind⟩ := List.map_eq_append_iff.1 hs
  obtain ⟨g, s', rfl, hg, hs'⟩ := List.map_eq_append_iff.1 hbehind
  rw [List.append_assoc s, List.append_assoc g] at starts ⊢
  have item := (head hkinds (complete_items hgap hrows hg hs' ht r) starts).joined hc hn []
  have more : Brings (readItems c (g ++ (s' ++ t :: r))) r fun _ => True :=
    (Follows.brings
      (follows_readItems hgap hrows (written_readAs.ofRows hrows) hc.place hg hs' ht r)
      fun _ _ _ _ => trivial).mono fun _ => trivial
  have first {vs : List Value} :
      (∃ v ws, vs = v :: ws ∧ v.Bears (Captioned comments scalar) steps ∧ True) →
        ItemsBear (Captioned comments scalar) vs (.item 0 :: steps) := by
    rintro ⟨v, ws, rfl, bears, -⟩ p
    exact .item rfl bears
  obtain ⟨list, items⟩ := brings_items item more
  exact ⟨list.mono first, fun s' lt found => (items s' lt found).mono first⟩

theorem rowsBear_tail {row : Row} {i : Nat} (hrow : Row.Written row kinds)
    (hgap : WritesGap false gap) (firm : ∀ kind ∈ rest.head?, standsFirm kind = true)
    (tail : RowsBear comments scalar rest front (.item i :: steps)) :
    RowsBear comments scalar (kinds ++ (gap ++ rest)) (kinds ++ (gap ++ front))
      (.item (i + 1) :: steps) := by
  intro c hc nls s t hn hs ht r starts
  obtain ⟨s, behind, rfl, hkinds, hbehind⟩ := List.map_eq_append_iff.1 hs
  obtain ⟨g, s', rfl, hg, hs'⟩ := List.map_eq_append_iff.1 hbehind
  rw [List.append_assoc s, List.append_assoc g] at starts ⊢
  cases hgap with
  | separator _ separates =>
    have complete := complete_separator separates hg (s' ++ t :: r)
    have item := (rowBrings_any hrow hkinds complete).joined hc hn []
    have more : Brings (readItems c (g ++ (s' ++ t :: r))) r
        (ItemsBear (Captioned comments scalar) · (.item i :: steps)) := by
      obtain ⟨nls, lt, found, hn⟩ :=
        readSeparator_found hc.inConf separates hg (firm_append firm hs' (firm_of_closes ht r))
      exact (tail hc hn hs' ht r ((starts.tail hkinds).tail hg)).2 _ lt found
    have later {vs : List Value} :
        (∃ v ws, vs = v :: ws ∧ True
          ∧ ItemsBear (Captioned comments scalar) ws (.item i :: steps)) →
          ItemsBear (Captioned comments scalar) vs (.item (i + 1) :: steps) := by
      rintro ⟨v, ws, rfl, -, bears⟩ p
      cases bears p with
      | item get h => exact .item get h
    obtain ⟨list, items⟩ := brings_items item more
    exact ⟨list.mono later, fun s' lt found => (items s' lt found).mono later⟩

/-! ### Fields on the way -/

variable {key : Path} {row : Row} {body : Body} {keys link : List TokenKind} {first : String}

/-- The field on the way is read, and what stands behind it leaves alone what it puts there. -/
theorem brings_way (hkey : WritesKey key keys) (hgap : WritesGap body.isNil gap)
    (hbody : Body.Written body rest) (misses : Body.Misses body (key.keys ++ leadingKeys steps))
    (hc : c.Plain) {braced : Bool} {f : Fields} {nls before s between more t r : List Item}
    {u : Item} (hn : LineEnds nls) (hkeys : (u :: before).map Item.kind = keys)
    (hbetween : between.map Item.kind = gap) (hmore : more.map Item.kind = rest)
    (closes : Closes braced t r)
    (missing : FieldsMiss f.entries (leadingKeys (key.keys.map .field ++ steps)))
    (field : Brings (readField c f u (before ++ (s ++ (between ++ (more ++ t)))))
      (between ++ (more ++ t)) (Puts f key fun v => false = false → v.Bears P steps)) :
    Brings (readFields c braced f (nls ++ (u :: (before ++ (s ++ (between ++ more))) ++ t))) r
      (FieldsBear P · (key.keys.map .field ++ steps)) := by
  have behind : key.keys ++ leadingKeys steps
      = key.first :: leadingKeys (key.rest.map .field ++ steps) := by
    rw [leadingKeys_fields]
    rfl
  rw [behind] at misses
  rw [leadingKeys_fields, behind] at missing
  refine brings_readFields hkey hgap hbody hc hn hkeys hbetween hmore closes field
    fun g nls put hn after => ?_
  have bears : FieldsBear P g.entries (.field key.first :: (key.rest.map .field ++ steps)) := by
    obtain ⟨v, hv, eq⟩ := put
    exact missing.puts_bears ⟨v, (hv rfl).nest key.keys, eq⟩
  exact brings_keep misses hbody hc hn hmore closes bears

theorem isNewline_of_isPiece {t : Item} (h : t.kind.isPiece = true) : t.isNewline = false := by
  rw [Item.isNewline]
  cases kind : t.kind with
  | newline =>
    rw [kind] at h
    cases h
  | _ => rfl

/-- On the line of the field nothing has comments but what comes first. -/
theorem comments_of_line {sign : TokenKind} (hkey : WritesKey key keys)
    (hsign : WritesSign false sign) {u x y : Item} {before r : List Item}
    (starts : StartsBehind comments [] (u :: (before ++ (x :: (y :: r)))))
    (hkeys : (u :: before).map Item.kind = keys) (hx : x.kind = sign) (hy : y.kind = scalar.kind) :
    u.comments = comments ∧ x.comments = [] ∧ y.comments = [] := by
  obtain ⟨_, _, eq, own, others⟩ := starts
  obtain ⟨rfl, rfl⟩ := List.cons.inj eq
  have split : before ++ (x :: (y :: r)) = (before ++ [x, y]) ++ r := by
    rw [List.append_assoc]
    rfl
  have line : ∀ z ∈ before ++ [x, y], z.isNewline = false := by
    intro z hz
    rcases List.mem_append.1 hz with hz | hz
    · have mem : z.kind ∈ keys := hkeys ▸ List.mem_map_of_mem (List.mem_cons_of_mem u hz)
      exact isNewline_of_isPiece (isPiece_of_ofTokens? hkey.path z.kind mem)
    · rcases List.mem_pair.1 hz with rfl | rfl
      · rw [Item.isNewline, hx]
        cases hsign <;> rfl
      · rw [Item.isNewline, hy]
        cases scalar <;> rfl
  have none := others _ _ split line
  exact ⟨own, none x (by simp), none y (by simp)⟩

theorem bodyBears_here {sign : TokenKind} (hkey : WritesKey key keys)
    (hsign : WritesSign false sign) (hgap : WritesGap body.isNil gap)
    (hbody : Body.Written body rest) (misses : Body.Misses body key.keys) :
    BodyBears comments scalar (keys ++ ([sign] ++ ([scalar.kind] ++ (gap ++ rest)))) []
      (key.keys.map .field) := by
  intro c hc braced f nls s t r hn hs closes starts missing
  obtain ⟨u, before, front, value, between, more, rfl, hkeys, hfront, hvalue, hbetween, hmore⟩ :=
    exists_items_of_field hkey hs
  obtain ⟨x, front, rfl, hx, hnone⟩ := List.map_eq_cons_iff.1 hfront
  cases List.map_eq_nil_iff.1 hnone
  obtain ⟨y, value, rfl, hy, hnone⟩ := List.map_eq_cons_iff.1 hvalue
  cases List.map_eq_nil_iff.1 hnone
  have complete := complete_fields hgap hbody hbetween hmore closes
  have line :
      StartsBehind comments [] (u :: (before ++ (x :: (y :: (between ++ (more ++ t)))))) := by
    simpa only [List.cons_append, List.nil_append, List.append_assoc] using starts
  obtain ⟨own, plain, alone⟩ := comments_of_line hkey hsign line hkeys hx hy
  have spelled : Path.ofTokens? ((u :: before).map Item.kind) = .ok key := hkeys ▸ hkey.path
  have field := brings_readField_sign spelled lineEnds_nil hc (hx ▸ hsign) (fun c' hc' =>
    brings_readFieldValue
      (brings_readJoined_scalar hc' hy alone complete (u.comments ++ x.comments))) f
  rw [own, plain, List.append_nil] at field
  rw [← List.append_nil (key.keys.map _)] at missing ⊢
  refine brings_way (s := [x] ++ [y]) hkey hgap hbody ?_ hc hn hkeys hbetween hmore closes missing
    (field.mono ?_)
  · rwa [show leadingKeys [] = [] from rfl, List.append_nil]
  · rintro g ⟨v, hv, eq⟩
    exact ⟨v, fun _ => .here (hv rfl), eq⟩

theorem bodyBears_inside (hkey : WritesKey key keys) (hlink : WritesLink false row link)
    (hrow : Row.Written row kinds) (hgap : WritesGap body.isNil gap)
    (hbody : Body.Written body rest)
    (misses : Body.Misses body (key.keys ++ leadingKeys steps))
    (inside : RowBears comments scalar row kinds front steps) :
    BodyBears comments scalar (keys ++ (link ++ (kinds ++ (gap ++ rest))))
      (keys ++ (link ++ front)) (key.keys.map .field ++ steps) := by
  intro c hc braced f nls s t r hn hs closes starts missing
  obtain ⟨u, before, start, value, between, more, rfl, hkeys, hlink', hvalue, hbetween, hmore⟩ :=
    exists_items_of_field hkey hs
  have complete := complete_fields hgap hbody hbetween hmore closes
  have there : StartsBehind comments front (value ++ (between ++ (more ++ t))) := by
    have whole : StartsBehind comments (keys ++ (link ++ front))
        (u :: before ++ (start ++ (value ++ (between ++ (more ++ t))))) := by
      simpa only [List.cons_append, List.append_assoc] using starts
    exact (whole.tail hkeys).tail hlink'
  have spelled : Path.ofTokens? ((u :: before).map Item.kind) = .ok key := hkeys ▸ hkey.path
  have field := brings_readField hc hlink hrow spelled hlink' hvalue
    (inside hvalue complete there) f
  rw [← List.append_assoc start] at field ⊢
  exact brings_way hkey hgap hbody misses hc hn hkeys hbetween hmore closes missing field

theorem bodyBears_behind {grows : Bool} (hkey : WritesKey key keys)
    (hlink : WritesLink grows row link) (hrow : Row.Written row kinds)
    (hgap : WritesGap body.isNil gap) (hbody : Body.Written body rest)
    (misses : Body.Misses (.field key grows row .nil) (leadingKeys steps))
    (behind : BodyBears comments scalar rest front steps) :
    BodyBears comments scalar (keys ++ (link ++ (kinds ++ (gap ++ rest))))
      (keys ++ (link ++ (kinds ++ (gap ++ front)))) steps := by
  intro c hc braced f nls s t r hn hs closes starts missing
  obtain ⟨u, before, start, value, between, more, rfl, hkeys, hlink', hvalue, hbetween, hmore⟩ :=
    exists_items_of_field hkey hs
  have complete := complete_fields hgap hbody hbetween hmore closes
  have there : StartsBehind comments front (more ++ t) := by
    have whole : StartsBehind comments (keys ++ (link ++ (kinds ++ (gap ++ front))))
        (u :: before ++ (start ++ (value ++ (between ++ (more ++ t))))) := by
      simpa only [List.cons_append, List.append_assoc] using starts
    exact (((whole.tail hkeys).tail hlink').tail hvalue).tail hbetween
  have field := puts_misses hc misses hkey hlink hrow hkeys hlink' hvalue complete f
  rw [← List.append_assoc start] at field ⊢
  refine brings_readFields hkey hgap hbody hc hn hkeys hbetween hmore closes field
    fun g nls put hn after => ?_
  exact behind hc hn hmore closes there (missing.puts put)

end

end Document

open Value Document

/-! ### Every way to a field -/

section

variable {comments : List String} {scalar : Scalar} {kinds front : List TokenKind}
  {steps : List TreeStep}

theorem Rows.HasField.exists_item {rows : Rows} (h : rows.HasField scalar kinds front steps) :
    rows.isNil = false ∧ ∃ i rest, steps = .item i :: rest := by
  cases h <;> exact ⟨rfl, _, _, rfl⟩

/-- A field is behind what opens the value. -/
theorem Term.HasField.exists_cons {term : Term} (h : term.HasField scalar kinds front steps) :
    (∃ kind inside, front = kind :: inside) ∧ ∃ step rest, steps = step :: rest := by
  cases h with
  | object n h =>
    obtain ⟨key, rest, rfl⟩ := h.exists_field
    exact ⟨⟨_, _, rfl⟩, _, _, rfl⟩
  | list n h =>
    obtain ⟨-, i, rest, rfl⟩ := h.exists_item
    exact ⟨⟨_, _, rfl⟩, _, _, rfl⟩

theorem Term.exists_shift (term : Term) (step : TreeStep) (steps : List TreeStep) :
    ∃ step' rest, term.shift (step :: steps) = step' :: rest := by
  unfold Term.shift
  split
  · exact ⟨_, _, rfl⟩
  · exact ⟨_, _, rfl⟩

theorem Terms.HasField.exists_step {terms : Terms} {kinds front : List TokenKind}
    {steps : List TreeStep} (h : terms.HasField scalar kinds front steps) :
    ∃ step rest, steps = step :: rest := by
  cases h with
  | head h _ _ => exact h.exists_cons.2
  | tail _ _ h =>
    obtain ⟨step, rest, rfl⟩ := h.exists_step
    exact Term.exists_shift _ step rest

mutual

theorem Term.HasField.bears {term : Term} {kinds front : List TokenKind} {steps : List TreeStep} :
    term.HasField scalar kinds front steps → ValueBears comments scalar kinds front steps
  | .object n h => by
    obtain ⟨key, rest, rfl⟩ := h.exists_field
    exact valueBears_object n h.bears
  | .list n h => by
    obtain ⟨-, i, rest, rfl⟩ := h.exists_item
    exact valueBears_list n h.bears

theorem Terms.HasField.bears {terms : Terms} {kinds front : List TokenKind}
    {steps : List TreeStep} :
    terms.HasField scalar kinds front steps →
      ValuesBear comments scalar kinds front steps
        ∧ ∀ term, terms = .cons term .nil → ValueBears comments scalar kinds front steps
  | .head h tail beside => by
    obtain ⟨⟨kind, inside, opens⟩, -⟩ := h.exists_cons
    refine ⟨valuesBear_head h.written tail beside opens h.bears, ?_⟩
    rintro term ⟨⟩
    cases tail
    rw [List.append_nil]
    exact h.bears
  | .tail head beside h => by
    refine ⟨valuesBear_tail head h.written beside h.bears.1, ?_⟩
    rintro term ⟨⟩
    cases h

theorem Row.HasField.bears {row : Row} {kinds front : List TokenKind} {steps : List TreeStep} :
    row.HasField scalar kinds front steps → RowBears comments scalar row kinds front steps
  | .mk h => by
    obtain ⟨step, rest, rfl⟩ := h.exists_step
    exact rowBears_mk h.written h.bears.1 fun single => h.bears.2 _ (by rw [single])

theorem Rows.HasField.bears {rows : Rows} {kinds front : List TokenKind} {steps : List TreeStep} :
    rows.HasField scalar kinds front steps → RowsBear comments scalar kinds front steps
  | .head h hgap hrest => rowsBear_head hgap hrest h.bears
  | .tail hrow hgap h => rowsBear_tail hrow (h.exists_item.1 ▸ hgap) (firm_rows h.written) h.bears

theorem Body.HasField.bears {body : Body} {kinds front : List TokenKind} {steps : List TreeStep} :
    body.HasField scalar kinds front steps → BodyBears comments scalar kinds front steps
  | .here hkey hsign hgap hrest misses => bodyBears_here hkey hsign hgap hrest misses
  | .inside hkey hlink h hgap hrest misses =>
    bodyBears_inside hkey hlink h.written hgap hrest misses h.bears
  | .behind hkey hlink hrow hgap misses h =>
    bodyBears_behind hkey hlink hrow hgap h.written misses h.bears

end

end

namespace Document

/-! ### Documents -/

section

variable {c : Context} {comments : List String} {scalar : Scalar} {kinds front : List TokenKind}
  {steps : List TreeStep}

theorem gives_readRoot_object (hc : c.Plain)
    (values : ValueBears comments scalar (.openBrace :: kinds) front steps)
    {nls s nls' : List Item} (hn : LineEnds nls) (hs : s.map Item.kind = .openBrace :: kinds)
    (hn' : LineEnds nls') (starts : StartsBehind comments front (s ++ nls')) :
    Gives (readRoot c (nls ++ (s ++ nls'))) (·.Bears (Captioned comments scalar) steps) := by
  obtain ⟨t, s, rfl, ht, -⟩ := List.map_eq_cons_iff.1 hs
  obtain ⟨le, skip⟩ := skipNewlines_eq hc.inConf hn (.cons (by rw [ht]; rfl) (s ++ nls'))
  obtain ⟨le', skip'⟩ := skipNewlines_end hc.inConf hn'
  unfold readRoot
  rw [List.cons_append, skip]
  simp only [pure_bind, ht, TokenKind.opensContainer, if_true]
  refine (values hc hs nls' starts []).bind fun v le both => ?_
  simp only [skip', pure_bind]
  exact .pure both.2

theorem gives_readRoot_body (hc : c.Plain) {body : Body} (h : Body.Written body kinds)
    {first : String} (fields : BodyBears comments scalar kinds front (.field first :: steps))
    {nls s : List Item} (hn : LineEnds nls) (hs : s.map Item.kind = kinds)
    (starts : StartsBehind comments front s) :
    Gives (readRoot c (nls ++ s))
      (·.Bears (Captioned comments scalar) (.field first :: steps)) := by
  have firm : Firm s := by
    have whole := firm_append (firm_body h) hs (t := []) nofun
    rwa [List.append_nil] at whole
  obtain ⟨le, skip⟩ := skipNewlines_eq hc.inConf hn firm
  obtain ⟨le', skip'⟩ := skipNewlines_end hc.inConf lineEnds_nil
  have braceless : ∀ t ∈ s.head?, t.kind.opensContainer = false := by
    intro t ht
    cases s with
    | nil => cases ht
    | cons u s =>
      cases ht
      subst hs
      have piece := h.isPiece t.kind rfl
      cases kind : t.kind <;> rw [kind] at piece <;> first | rfl | cases piece
  have read := fields hc (f := {}) lineEnds_nil hs .stop (by rwa [List.append_nil])
    fun p => misses_nil (List.cons_ne_nil _ _)
  rw [List.append_nil] at read
  rw [readRoot_braceless hc.inConf.syn skip braceless]
  refine Brings.bind read fun fs le bears => ?_
  simp only [skip', pure_bind]
  exact .pure (bears _)

/-- **A document is read as a tree with the scalar where the steps lead**, under the comments above
its field. -/
theorem gives_readRoot (hc : c.Plain) {script : Script}
    (h : script.HasField scalar kinds front steps) {s : List Item} (hs : s.map Item.kind = kinds)
    (starts : StartsBehind comments front s) :
    Gives (readRoot c s) (·.Bears (Captioned comments scalar) steps) := by
  cases h with
  | object m n h =>
    obtain ⟨nls, s, rfl, hnls, hs⟩ := List.map_eq_append_iff.1 hs
    obtain ⟨s, nls', rfl, hs, hnls'⟩ := List.map_eq_append_iff.1 hs
    obtain ⟨rest, rfl⟩ := h.written.openBrace
    exact gives_readRoot_object hc h.bears (lineEnds_of_kinds hnls) hs (lineEnds_of_kinds hnls')
      (starts.tail hnls)
  | body n h =>
    obtain ⟨nls, s, rfl, hnls, hs⟩ := List.map_eq_append_iff.1 hs
    obtain ⟨first, rest, rfl⟩ := h.exists_field
    exact gives_readRoot_body hc h.written h.bears (lineEnds_of_kinds hnls) hs (starts.tail hnls)

end

/-- **Comments belong to the field below them.**  In a HOCON text that parses, let a field start on
a line, with a scalar on that line, and let no other field define its path.  Then the scalar is
where the path leads, and the comments of its origin are those of the lines right above that hold a
comment and nothing else. -/
theorem parseText_comments (files : FileTree) {o : ParseOptions} (conf : o.syn.getD .conf = .conf)
    {text : String} {before rest : List Token} {t : Token}
    (tokens : (Token.ofText .conf text.toList).tail = before ++ t :: rest)
    (first : ∀ u ∈ before.getLast?, u.kind = .newline) (piece : t.kind.isPiece = true)
    {script : Script} {scalar : Scalar} {steps : List TreeStep}
    (field : script.HasField scalar ((itemsOf text).map Item.kind) (itemKinds before) steps)
    {v : Value} {m m' : List IncludeRecord}
    (parsed : (parseText files o text).run.run m = (.ok v, m')) :
    ∃ origin, v.at? steps = some (scalar.value origin)
      ∧ origin.comments = commentsAbove before := by
  have stands : t.kind.standsOnLine = true := by
    cases kind : t.kind <;> (rw [kind] at piece; first | rfl | cases piece)
  have starts : StartsBehind (commentsAbove before) (itemKinds before) (itemsOf text) :=
    headed_itemsOf tokens first stands
  obtain ⟨answer, eq⟩ := exists_parseText_eq_read files conf
  have plain : ((ofText "").originFor o).comments = [] := by
    unfold originFor
    cases o.description <;> rfl
  have gives : Gives (parseText files o text)
      (·.Bears (Captioned (commentsAbove before) scalar) steps) := by
    rw [eq]
    refine Gives.bind (gives_readRoot ⟨⟨rfl, kind_stopOf _ _⟩, plain⟩ field rfl starts)
      fun w bears => .ofExcept fun u hu => ?_
    unfold checkRoot at hu
    split at hu <;> cases hu
    exact bears
  obtain ⟨u, there, origin, rfl, own⟩ := (gives m v m' parsed).exists_at?
  exact ⟨origin, there, own⟩

/-- A block above a blank line, a comment behind a brace and the two lines that count. -/
theorem parseText_comments_example :
    ∃ v origin, (parseText {} {} "#a\n\nx:[\x7b#b\n#c\n#d\ny:1#e\n\x7d]").run.run [] = (.ok v, [])
      ∧ v.at? [.field "x", .item 0, .field "y"] = some (literalValue origin (.whole 1 "1"))
      ∧ origin.comments = ["c", "d"] := by
  have lexed : Lexed false "#a\n\nx:[\x7b#b\n#c\n#d\ny:1#e\n\x7d]".toList
      [.newline, .newline, .bare "x", .colon, .openBracket, .openBrace, .newline, .newline,
        .newline, .bare "y", .colon, .value (.whole 1 "1"), .newline, .closeBrace,
        .closeBracket] := by
    refine @Lexed.line _ _ _ [] ['a'] rfl (by decide) ?_
    refine .firstSign rfl <| .firstSign rfl <| .front rfl (by decide) rfl rfl <| .firstSign rfl <|
      .firstSign rfl <| .firstSign rfl ?_
    refine @Lexed.line _ _ _ [] ['b'] rfl (by decide) (.firstSign rfl ?_)
    refine @Lexed.line _ _ _ [] ['c'] rfl (by decide) (.firstSign rfl ?_)
    refine @Lexed.line _ _ _ [] ['d'] rfl (by decide) (.firstSign rfl ?_)
    refine .front rfl (by decide) rfl rfl <| .firstSign rfl <| .front rfl (by decide) rfl rfl ?_
    refine @Lexed.line _ _ _ [] ['e'] rfl (by decide) (.firstSign rfl ?_)
    exact .firstSign rfl <| .firstSign rfl <| .stop rfl
  generalize text_eq : "#a\n\nx:[\x7b#b\n#c\n#d\ny:1#e\n\x7d]" = text at lexed ⊢
  obtain ⟨before, behind, tokens, length, above, first, piece⟩ :
      ∃ before behind, (Token.ofText .conf text.toList).tail = before ++ behind
        ∧ (itemKinds before).length = 9 ∧ commentsAbove before = ["c", "d"]
        ∧ before.getLast?.all (·.kind.endsLine) = true
        ∧ behind.head?.any (·.kind.isPiece) = true := by
    subst text_eq
    exact ⟨_, _, (List.take_append_drop 13 _).symm, by decide +kernel, by decide +kernel,
      by decide +kernel, by decide +kernel⟩
  have read : ((parseText {} {} text).run.run []).1.toOption.isSome
      && ((parseText {} {} text).run.run []).2.isEmpty := by
    subst text_eq
    rw [parseText, Document.load, dif_pos (by decide)]
    decide +kernel
  obtain ⟨t, rest, rfl⟩ : ∃ t rest, behind = t :: rest := by
    cases behind with
    | nil => cases piece
    | cons t rest => exact ⟨t, rest, rfl⟩
  have kinds : (itemsOf text).map Item.kind = _ := lexed.items
  have front : itemKinds before = [.newline, .newline, .bare "x", .colon, .openBracket, .openBrace,
      .newline, .newline, .newline] := by
    have all : itemKinds before ++ itemKinds (t :: rest) = (itemsOf text).map Item.kind := by
      rw [← itemKinds_append, ← tokens]
      exact (kinds_ofTokens _).symm
    rw [kinds] at all
    have taken := congrArg (List.take 9) all
    rwa [← length, List.take_left, length] at taken
  have x : WritesKey (.ofKey "x") [.bare "x"] := ⟨rfl, by decide⟩
  have y : WritesKey (.ofKey "y") [.bare "y"] := ⟨rfl, by decide⟩
  obtain ⟨script, field⟩ : ∃ script, Script.HasField (.literal (.whole 1 "1")) script
      ((itemsOf text).map Item.kind) (itemKinds before) [.field "x", .item 0, .field "y"] := by
    have gap : WritesGap true [.newline] := .separator _ (.newline 0)
    have inner : Body.HasField (.literal (.whole 1 "1")) (.field (.ofKey "y") false _ .nil) _ _ _ :=
      .here y .colon gap .nil .nil
    have list : Row.HasField _ (.mk (.list (.cons (.mk (.object _) .nil) .nil)) .nil) _ _ _ :=
      .mk (.head (.list 0 (.head (.mk (.head (.object 3 inner) .nil .nil)) .nothing .nil))
        .nil .nil)
    have outer : Body.HasField _ (.field (.ofKey "x") false _ .nil) _ _ _ :=
      .inside x (.sign 0 0 _ .colon) list .nothing .nil .nil
    rw [kinds, front]
    exact ⟨_, .body 2 outer⟩
  rcases parsed : (parseText {} {} text).run.run [] with ⟨e | v, m⟩
  · rw [parsed] at read
    cases read
  rw [parsed] at read
  cases List.isEmpty_iff.1 read
  have newline : ∀ u ∈ before.getLast?, u.kind = .newline := by
    intro u hu
    rw [Option.mem_def.1 hu] at first
    exact TokenKind.eq_newline_of_endsLine first
  obtain ⟨origin, there, own⟩ :=
    parseText_comments {} (o := {}) rfl tokens newline piece field parsed
  exact ⟨v, origin, rfl, there, own.trans above⟩

end Document

end Hocon
