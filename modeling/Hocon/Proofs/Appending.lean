import Mathlib.Data.List.DropRight
import Hocon.Proofs.Continuing
import Hocon.Proofs.Enclosing
import Hocon.Proofs.Following

/-!
# Documents behind each other

The fields of a document may be followed by those of another one.  How the fields of an object are
read is told as a relation between what there is before and what there is then (`FieldsRead`), one
rule for each way in which a field is followed by something; it holds of exactly the runs of
`readFields` that give a result.

A text that is read for itself up to its end is read elsewhere up to what is behind it, and then
the reading goes on as if the text had not been there, but for the fields that it put over the
others (`FieldsRead.follow`).
-/

namespace Hocon

namespace Document

open Value

/-! ### Reading fields as a relation -/

theorem exists_run_of_bind {α β : Type} {x : Loading α} {f : α → Loading β}
    {m m'' : List IncludeRecord} {b : β} (run : (x >>= f).run.run m = (.ok b, m'')) :
    ∃ a m', x.run.run m = (.ok a, m') ∧ (f a).run.run m' = (.ok b, m'') := by
  simp only [ExceptT.run_bind, StateT.run_bind] at run
  rcases hx : x.run.run m with ⟨e | a, m'⟩ <;> rw [hx] at run
  · cases run
  · exact ⟨a, m', rfl, run⟩

/-- Reads a field or an include statement, and puts it over the fields so far. -/
def readMember (c : Context) (f : Fields) (t : Item) (s : List Item) : Read Fields s :=
  if t.kind.isInclude && c.syn != .json then do
    let (entries, q) ← readInclude c f.entries t s
    pure ({ f with entries }, q)
  else readField c f t s

/-- Reads what follows a field, behind a separator or where there is none. -/
def readBehind (c : Context) (braced : Bool) (g : Fields) {q : List Item} :
    Separation q → Read (Entries Value) q
  | .found ⟨p, hp⟩ => do
    let (entries, ⟨r, hr⟩) ← readFields c braced { g with afterSeparator := true } p
    return (entries, ⟨r, Nat.le_of_lt (Nat.lt_of_le_of_lt hr hp)⟩)
  | .missing ⟨[], hp⟩ =>
    if braced then throw (c.fail c.stop (.openObject c.stop.describe) (g.hint c c.stop))
    else return (g.entries, ⟨[], hp⟩)
  | .missing ⟨u :: rest, hp⟩ =>
    match u.kind with
    | .closeBrace =>
      if braced then return (g.entries, ⟨rest, Nat.le_of_lt hp⟩)
      else throw (c.fail u .unbalancedBrace (g.hint c u))
    | _ =>
      throw (c.fail u
        (if braced then .openObject u.describe else .openRoot u.describe) (g.hint c u))

/-- Where no brace closes the object, fields are read one after the other. -/
theorem readFields_eq {c : Context} (braced : Bool) (f : Fields) {s rest : List Item} {t : Item}
    {le : (t :: rest).length ≤ s.length} (skip : skipNewlines c s = pure ⟨t :: rest, le⟩) (opened : t.kind ≠ .closeBrace) :
    readFields c braced f s = (do
      let (g, ⟨q, hq⟩) ← readMember c f t rest
      let (entries, ⟨r, hr⟩) ← readSeparator c q >>= readBehind c braced g
      return (entries, ⟨r, Nat.le_trans hr (Nat.le_trans hq (Nat.le_of_lt le))⟩)) := by
  rw [readFields, skip]
  simp only [pure_bind, bind_assoc]
  unfold readMember
  split <;> [simp only [bind_assoc, pure_bind]; skip]
  all_goals
    refine bind_congr fun a => bind_congr fun separation => ?_
    obtain ⟨p, hp⟩ | ⟨_ | ⟨u, last⟩, hp⟩ := separation
    · simp only [readBehind, bind_assoc, pure_bind]
    · cases braced <;> rfl
    · by_cases closes : u.kind = .closeBrace
      · simp only [readBehind, closes]
        cases braced <;> rfl
      · simp only [readBehind]
        rfl

/-- A field or an include statement was read that starts with the item `t`. -/
structure MemberRead (c : Context) (f : Fields) (t : Item) (rest : List Item)
    (m : List IncludeRecord) (g : Fields) (q : List Item) (m' : List IncludeRecord) : Prop where
  clean : Clean t
  opened : t.kind ≠ .closeBrace
  run : ∃ le, (readMember c f t rest).run.run m = (.ok (g, ⟨q, le⟩), m')

/-- `es` are the fields over those of `f` when those in `s` were read, and `r` is left. -/
inductive FieldsRead (c : Context) (braced : Bool) :
    Fields → List Item → List IncludeRecord → Entries Value → List Item → List IncludeRecord → Prop
  | none {f : Fields} {s t r : List Item} {m : List IncludeRecord}
      (front : s.dropWhile Item.isNewline = t) (closes : Closes braced t r) :
      FieldsRead c braced f s m f.entries r m
  | last {f g : Fields} {s rest q u r : List Item} {t : Item} {m m' : List IncludeRecord}
      (front : s.dropWhile Item.isNewline = t :: rest) (member : MemberRead c f t rest m g q m')
      (missing : ∃ le, readSeparator c q = pure (.missing ⟨u, le⟩)) (closes : Closes braced u r) :
      FieldsRead c braced f s m g.entries r m'
  | more {f g : Fields} {s rest q p r : List Item} {t : Item} {m m' m'' : List IncludeRecord}
      {es : Entries Value} (front : s.dropWhile Item.isNewline = t :: rest)
      (member : MemberRead c f t rest m g q m')
      (found : ∃ lt, readSeparator c q = pure (.found ⟨p, lt⟩))
      (fields : FieldsRead c braced { g with afterSeparator := true } p m' es r m'') :
      FieldsRead c braced f s m es r m''

variable {c : Context} {braced : Bool} {f : Fields} {s r : List Item}
  {m m' : List IncludeRecord} {es : Entries Value}

/-- Only what comes behind line ends matters. -/
theorem FieldsRead.of_front {s' : List Item}
    (same : s'.dropWhile Item.isNewline = s.dropWhile Item.isNewline)
    (h : FieldsRead c braced f s m es r m') : FieldsRead c braced f s' m es r m' := by
  cases h with
  | none front closes => exact .none (same.trans front) closes
  | last front member missing closes => exact .last (same.trans front) member missing closes
  | more front member found fields => exact .more (same.trans front) member found fields

/-- Where line ends are skipped, nothing is refused behind them and nothing else happens. -/
theorem skipNewlines_of_run {r : Left s} (run : (skipNewlines c s).run.run m = (.ok r, m')) :
    skipNewlines c s = pure r ∧ m' = m ∧ s.dropWhile Item.isNewline = r.val
      ∧ ∀ t ∈ r.val.head?, Clean t := by
  obtain ⟨le, skip⟩ := skipNewlines_eq_check c (rfl : s.dropWhile Item.isNewline = _)
  rw [skip] at run ⊢
  cases refused : c.refusal? (c.front (s.dropWhile Item.isNewline)) with
  | some e =>
    rw [checkFront, refused] at run
    cases run
  | none =>
    rw [checkFront, refused] at run ⊢
    cases run
    refine ⟨rfl, rfl, rfl, fun t front => ?_⟩
    have here : c.front (s.dropWhile Item.isNewline) = t := by
      rw [Context.front, List.headD_eq_head?_getD, show _ = some t from front]
      rfl
    exact clean_of_refusal? (here ▸ refused)

/-- A separator is looked for without any include. -/
theorem readSeparator_of_run {separation : Separation s}
    (run : (readSeparator c s).run.run m = (.ok separation, m')) :
    readSeparator c s = pure separation ∧ m' = m := by
  unfold readSeparator at run ⊢
  obtain ⟨r, m₁, skips, run⟩ := exists_run_of_bind run
  obtain ⟨skip, rfl, -⟩ := skipNewlines_of_run skips
  rw [skip, pure_bind]
  obtain ⟨r, le⟩ := r
  simp only [] at run ⊢
  cases r with
  | nil =>
    cases run
    exact ⟨rfl, rfl⟩
  | cons t rest =>
    simp only [] at run ⊢
    split at run <;> cases run <;> exact ⟨rfl, rfl⟩

/-- What is read as fields is read by the rules. -/
theorem fieldsRead_of_run (conf : c.syn = .conf) {le : r.length ≤ s.length}
    (run : (readFields c braced f s).run.run m = (.ok (es, ⟨r, le⟩), m')) :
    FieldsRead c braced f s m es r m' := by
  obtain ⟨n, hn⟩ : ∃ n, s.length = n := ⟨_, rfl⟩
  induction n using Nat.strongRecOn generalizing f s m with
  | ind n ih =>
    have opening := run
    rw [readFields] at opening
    obtain ⟨⟨t, ht⟩, m₁, skips, opening⟩ := exists_run_of_bind opening
    obtain ⟨skip, rfl, front, clean⟩ := skipNewlines_of_run skips
    cases t with
    | nil =>
      simp only [] at opening
      split at opening
      · cases opening
      · next root =>
        cases opening
        cases (Bool.eq_false_iff.2 root)
        exact .none front .stop
    | cons t rest =>
      by_cases brace : t.kind = .closeBrace
      · simp only [conf, brace, reduceCtorEq, false_and, if_false] at opening
        split at opening
        · cases opening
        · next open_ =>
          cases opening
          have braced : braced = true := by simpa using open_
          cases braced
          exact .none front (.brace brace _)
      · rw [readFields_eq braced f skip brace] at run
        obtain ⟨⟨g, q, hq⟩, m₂, member, run⟩ := exists_run_of_bind run
        obtain ⟨⟨es', r', hr'⟩, m₃, behind, run⟩ := exists_run_of_bind run
        cases run
        obtain ⟨separation, m₄, separates, behind⟩ := exists_run_of_bind behind
        obtain ⟨separated, rfl⟩ := readSeparator_of_run separates
        have member : MemberRead c f t rest m₁ g q m₄ := ⟨clean t rfl, brace, hq, member⟩
        obtain ⟨p, hp⟩ | ⟨_ | ⟨u, last⟩, hp⟩ := separation
        · obtain ⟨⟨es', p', hp'⟩, m₅, fields, behind⟩ := exists_run_of_bind behind
          cases behind
          have shorter : p.length < n := by
            rw [List.length_cons] at ht
            omega
          exact .more front member ⟨hp, separated⟩ (ih p.length shorter fields rfl)
        · rw [readBehind] at behind
          split at behind
          · cases behind
          · next root =>
            cases behind
            cases (Bool.eq_false_iff.2 root)
            exact .last front member ⟨hp, separated⟩ .stop
        · rw [readBehind] at behind
          split at behind
          · next closes =>
            split at behind
            · next braced =>
              cases behind
              cases braced
              exact .last front member ⟨hp, separated⟩ (.brace closes _)
            · cases behind
          · cases behind

/-- A field is read, and then what follows it. -/
theorem MemberRead.run_readFields {g : Fields} {t : Item} {rest q : List Item}
    {m₁ : List IncludeRecord} (inConf : c.InConf) (front : s.dropWhile Item.isNewline = t :: rest)
    (member : MemberRead c f t rest m g q m₁) {separation : Separation q}
    (separated : readSeparator c q = pure separation) {le : r.length ≤ q.length}
    (behind : (readBehind c braced g separation).run.run m₁ = (.ok (es, ⟨r, le⟩), m')) :
    ∃ le, (readFields c braced f s).run.run m = (.ok (es, ⟨r, le⟩), m') := by
  obtain ⟨lt, check⟩ := skipNewlines_eq_check c front
  have passes : checkFront c (t :: rest) = pure () := by
    refine checkFront_eq inConf fun u front => ?_
    cases front
    exact member.clean
  rw [passes, pure_bind] at check
  obtain ⟨hq, field⟩ := member.run
  refine ⟨Nat.le_trans le (Nat.le_trans hq (Nat.le_of_lt lt)), ?_⟩
  rw [readFields_eq braced f check member.opened, run_bind_of_ok field]
  simp only [separated, pure_bind]
  rw [run_bind_of_ok behind]
  rfl

/-- What the rules allow is read. -/
theorem FieldsRead.run (inConf : c.InConf) (h : FieldsRead c braced f s m es r m') :
    ∃ le, (readFields c braced f s).run.run m = (.ok (es, ⟨r, le⟩), m') := by
  induction h with
  | @none f s t r m front closes =>
    have ends : LineEnds (s.takeWhile Item.isNewline) :=
      List.all_eq_true.1 List.all_takeWhile
    obtain ⟨le, closing⟩ := readFields_closing inConf ends closes f
    have whole : s.takeWhile Item.isNewline ++ t = s := front ▸ List.takeWhile_append_dropWhile
    rw [← whole]
    exact ⟨le, by rw [closing]; rfl⟩
  | @last f g s rest q u r t m m' front member missing closes =>
    obtain ⟨hu, missing⟩ := missing
    cases closes with
    | stop => exact member.run_readFields inConf front missing rfl
    | @brace u closes r =>
      have behind : (readBehind c true g (.missing ⟨u :: r, hu⟩)).run.run m'
          = (.ok (g.entries, ⟨r, Nat.le_of_lt hu⟩), m') := by
        rw [readBehind, closes]
        rfl
      exact member.run_readFields inConf front missing behind
  | @more f g s rest q p r t m m' m'' es front member found fields ih =>
    obtain ⟨hp, found⟩ := found
    obtain ⟨le, run⟩ := ih
    have behind : (readBehind c braced g (.found ⟨p, hp⟩)).run.run m'
        = (.ok (es, ⟨r, Nat.le_of_lt (Nat.lt_of_le_of_lt le hp)⟩), m'') := by
      rw [readBehind, run_bind_of_ok run]
      rfl
    exact member.run_readFields inConf front found behind

/-! ### Where a text ends -/

/-- A field or an include statement starts like a key. -/
theorem MemberRead.isKeyPiece {g : Fields} {t : Item} {rest q : List Item} (conf : c.syn = .conf)
    (member : MemberRead c f t rest m g q m') : t.isKeyPiece = true := by
  obtain ⟨-, -, le, run⟩ := member
  unfold readMember at run
  split at run
  · next keyword =>
    have word : t.kind.isInclude = true := (Bool.and_eq_true_iff.1 keyword).1
    rw [Item.isKeyPiece]
    cases kind : t.kind <;> rw [kind] at word <;> first | rfl | cases word
  · rw [readField] at run
    obtain ⟨_, _, key, _⟩ := exists_run_of_bind run
    unfold readKey at key
    rw [if_neg (by rw [conf]; decide)] at key
    split at key
    · assumption
    · cases key

theorem firm_of_isKeyPiece {t : Item} (piece : t.isKeyPiece = true) (rest : List Item) :
    Firm (t :: rest) := by
  refine .cons ?_ rest
  unfold Item.isKeyPiece at piece
  split at piece
  · next kind => rw [kind]; rfl
  · next kind => rw [kind]; rfl
  · cases piece

/-- Where fields are read, neither a comma nor a problem is in front. -/
theorem FieldsRead.firm (conf : c.syn = .conf) (h : FieldsRead c braced f s m es r m') :
    Firm (s.dropWhile Item.isNewline) := by
  cases h with
  | none front closes => exact front ▸ closes.firm
  | last front member _ _ => exact front ▸ firm_of_isKeyPiece (member.isKeyPiece conf) _
  | more front member _ _ => exact front ▸ firm_of_isKeyPiece (member.isKeyPiece conf) _

/-- Only line ends are there to separate something. -/
theorem readSeparator_of_firm (inConf : c.InConf) {e : List Item}
    (front : s.dropWhile Item.isNewline = e) (firm : Firm e) :
    ∃ le, readSeparator c s
      = pure (if h : e.length < s.length then .found ⟨e, h⟩ else .missing ⟨e, le⟩) := by
  obtain ⟨le, check⟩ := skipNewlines_eq_check c front
  rw [firm.checkFront inConf, pure_bind] at check
  have conf : c.syn ≠ .json := by
    rw [inConf.syn]
    decide
  refine ⟨le, ?_⟩
  unfold readSeparator
  simp only [check, pure_bind, conf, ne_eq, not_false_eq_true, true_and]
  cases e with
  | nil => rfl
  | cons t e =>
    have stands := firm t rfl
    simp only []
    split
    · next kind =>
      rw [kind] at stands
      cases stands
    · rfl

theorem pure_inj {α : Type} {a b : α} (h : (pure a : Loading α) = pure b) : a = b :=
  Except.ok.inj (congrArg (fun x : Loading α => (x.run.run []).1) h)

/-- Where no separator is found in front of nothing, only line ends are left. -/
theorem blank_of_missing {le : [].length ≤ s.length}
    (missing : readSeparator c s = pure (.missing ⟨[], le⟩)) : s.dropWhile Item.isNewline = [] := by
  have run : (readSeparator c s).run.run [] = (.ok (.missing ⟨[], le⟩), []) := by rw [missing]; rfl
  unfold readSeparator at run
  obtain ⟨⟨r, hr⟩, m, skips, run⟩ := exists_run_of_bind run
  obtain ⟨-, -, front, -⟩ := skipNewlines_of_run skips
  cases r with
  | nil => exact front
  | cons t rest =>
    simp only [] at run
    split at run
    · cases run
    · split at run <;> cases run

/-- Where only line ends are left, nothing is behind a separator. -/
theorem eq_nil_of_found (inConf : c.InConf) (blank : s.dropWhile Item.isNewline = []) {p : List Item}
    {lt : p.length < s.length} (found : readSeparator c s = pure (.found ⟨p, lt⟩)) : p = [] := by
  obtain ⟨le, separated⟩ := readSeparator_of_firm inConf blank nofun
  have same := pure_inj (found.symm.trans separated)
  split at same
  · cases same
    rfl
  · cases same

/-- Nothing is read at the end of a text. -/
theorem FieldsRead.of_nil (h : FieldsRead c braced f [] m es r m') :
    braced = false ∧ es = f.entries ∧ r = [] ∧ m' = m := by
  cases h with
  | none front closes =>
    subst front
    cases closes
    exact ⟨rfl, rfl, rfl, rfl⟩
  | last front => cases front
  | more front => cases front

/-- Behind the last field of a text, the reading goes on with what is behind the text. -/
theorem FieldsRead.behind {g : Fields} {t : Item} {rest q w : List Item} {m₁ : List IncludeRecord}
    (inConf : c.InConf) (breaks : Breaks w) (front : s.dropWhile Item.isNewline = t :: rest)
    (member : MemberRead c f t rest m g q m₁)
    (same : q.dropWhile Item.isNewline = w.dropWhile Item.isNewline) (longer : w.length ≤ q.length)
    (h : FieldsRead c braced { g with afterSeparator := true } w m₁ es r m') :
    FieldsRead c braced f s m es r m' := by
  obtain ⟨le, separated⟩ := readSeparator_of_firm inConf same (h.firm inConf.syn)
  by_cases lt : (w.dropWhile Item.isNewline).length < q.length
  · rw [dif_pos lt] at separated
    exact .more front member ⟨lt, separated⟩
      (h.of_front (List.dropWhile_idempotent (p := Item.isNewline) w))
  · rw [dif_neg lt] at separated
    -- a line end would have been skipped
    have none : w = [] := by
      cases w with
      | nil => rfl
      | cons u w =>
        have newline : u.isNewline = true := by rw [Item.isNewline, breaks u rfl]
        have shorter := (List.dropWhile_suffix (l := w) Item.isNewline).length_le
        rw [List.dropWhile_cons, if_pos newline] at lt
        rw [List.length_cons] at longer
        omega
    subst none
    obtain ⟨rfl, rfl, rfl, rfl⟩ := h.of_nil
    show FieldsRead c false f s m g.entries [] _
    exact .last front member ⟨le, separated⟩ .stop

/-- The same field elsewhere puts copies over the fields there. -/
theorem MemberRead.follow {c' : Context} {w rest q s' : List Item} {g : Fields} {t : Item}
    (beside : c.Beside c') (breaks : Breaks w) (front : s.dropWhile Item.isNewline = t :: rest)
    (member : MemberRead c f t rest m g q m') (ahead : Ahead w s s') (f' : Fields) :
    ∃ t' rest' g' q', s'.dropWhile Item.isNewline = t' :: rest'
      ∧ Overlays f.entries g.entries f'.entries g'.entries ∧ Past s q ∧ Ahead w q q'
      ∧ ∀ n, MemberRead c' f' t' rest' n g' q' n := by
  have past : Past s (s.dropWhile Item.isNewline) := .dropWhile (fun _ => clean_of_isNewline) s
  obtain ⟨blank, -⟩ | ⟨-, ahead⟩ := ahead.dropWhile isNewline_congr
  · rw [front] at blank
    cases blank
  rw [front] at past ahead
  generalize front' : s'.dropWhile Item.isNewline = r' at ahead
  cases ahead with
  | @item _ t' _ rest' kind plain ahead =>
    obtain ⟨clean, opened, le, run⟩ := member
    unfold readMember at run
    have conf {c : Context} (hc : c.InConf) : (c.syn != .json) = true := by
      rw [hc.syn]
      rfl
    split at run
    · exact absurd run ((fails_readInclude beside.refused _ t rest).bind_left _ _ _ _)
    · next keyword =>
      obtain ⟨⟨g', q', le'⟩, ⟨overlays, reaches⟩, run'⟩ :=
        (foretold breaks).2.2.2.2.2.2.1 c f t rest beside kind ahead _ _ _ run
      have past : Past s q := (past.trans (.tail clean rest)).trans reaches.past
      refine ⟨t', rest', g', q', rfl, overlays, past, reaches.ahead, fun n => ?_⟩
      have clean' : Clean t' := fun p problem => clean p (kind ▸ problem)
      refine ⟨clean', kind ▸ opened, le', ?_⟩
      unfold readMember
      rw [conf beside.left] at keyword
      rw [kind, conf beside.right, if_neg keyword]
      exact run' n

/-- **A text that is read up to its end** is passed elsewhere: what is read there is what is read
behind it, over copies of its fields. -/
theorem FieldsRead.follow {c' : Context} {w : List Item} (beside : c.Beside c')
    (breaks : Breaks w) (h : FieldsRead c false f s m es r m') {s' : List Item} (f' : Fields)
    (ahead : Ahead w s s') :
    Past s [] ∧ ∃ f'' : Fields, Overlays f.entries es f'.entries f''.entries
      ∧ ∀ b n es' r' n', FieldsRead c' b f'' w n es' r' n' → FieldsRead c' b f' s' n es' r' n' := by
  -- the last field, behind which only line ends are left
  have ending {f g f' : Fields} {s s' rest q : List Item} {t : Item} {m m' : List IncludeRecord}
      (front : s.dropWhile Item.isNewline = t :: rest) (member : MemberRead c f t rest m g q m')
      (blank : q.dropWhile Item.isNewline = []) (ahead : Ahead w s s') :
      Past s [] ∧ ∃ f'' : Fields, Overlays f.entries g.entries f'.entries f''.entries
        ∧ ∀ b n es' r' n', FieldsRead c' b f'' w n es' r' n' →
          FieldsRead c' b f' s' n es' r' n' := by
    obtain ⟨t', rest', g', q', front', overlays, past, ahead', member'⟩ :=
      member.follow beside breaks front ahead f'
    have ended : Past q [] := blank ▸ .dropWhile (fun _ => clean_of_isNewline) q
    refine ⟨past.trans ended, { g' with afterSeparator := true }, overlays, ?_⟩
    intro b n es' r' n' read
    obtain ⟨-, same⟩ | ⟨present, -⟩ := ahead'.dropWhile isNewline_congr
    · have longer : w.length ≤ q'.length := by
        rw [ahead'.length]
        omega
      exact .behind beside.right breaks front' (member' n) same longer read
    · exact absurd blank present
  induction h generalizing s' f' with
  | none front closes =>
    cases closes
    obtain ⟨-, same⟩ | ⟨present, -⟩ := ahead.dropWhile isNewline_congr
    · refine ⟨front ▸ .dropWhile (fun _ => clean_of_isNewline) _, f', .refl _ _, ?_⟩
      exact fun b n es' r' n' read => read.of_front same
    · exact absurd front present
  | @last f g s rest q u r t m m' front member missing closes =>
    cases closes
    obtain ⟨le, missing⟩ := missing
    exact ending front member (blank_of_missing missing) ahead
  | @more f g s rest q p r t m m' m'' es front member found fields ih =>
    obtain ⟨lt, found⟩ := found
    by_cases blank : q.dropWhile Item.isNewline = []
    · cases eq_nil_of_found beside.left blank found
      obtain ⟨-, same, -, -⟩ := fields.of_nil
      rw [show es = g.entries from same]
      exact ending front member blank ahead
    · obtain ⟨t', rest', g', q', front', overlays, past, ahead', member'⟩ :=
        member.follow beside breaks front ahead f'
      obtain ⟨separation, together, separates⟩ :=
        foretells_readSeparator beside breaks ahead' blank m _ m (by rw [found]; rfl)
      obtain ⟨separated, -⟩ := readSeparator_of_run (separates m)
      cases separation with
      | missing => exact together.elim
      | found p' =>
        obtain ⟨p', lt'⟩ := p'
        obtain ⟨past', ahead''⟩ := together
        obtain ⟨ended, f'', more, goes⟩ := ih { g' with afterSeparator := true } ahead''
        refine ⟨(past.trans past').trans ended, f'', overlays.trans more, ?_⟩
        intro b n es' r' n' read
        exact .more front' (member' n) ⟨lt', separated⟩ (goes b n es' r' n' read)

/-! ### Other ways to start -/

/-- An include statement puts the fields of the document over those so far. -/
theorem FieldsRead.include {name : String} {keyword blank named : Item} {w : List Item}
    {v : Value} {included : Entries Value} {m₁ : List IncludeRecord} (inConf : c.InConf)
    (breaks : Breaks w) (front : s.dropWhile Item.isNewline = keyword :: blank :: named :: w)
    (hkeyword : keyword.kind = .bare "include") (hblank : blank.kind = .bare " ")
    (hname : named.kind = .value (.string name))
    (answered : (c.answer { name, isFileName := false, required := false }).run.run m = (.ok v, m₁))
    (moved : (c.moved v).fields? = some included)
    (h : FieldsRead c braced
      { f with entries := includeFields f.entries included, afterSeparator := true } w m₁ es r m') :
    FieldsRead c braced f s m es r m' := by
  obtain ⟨le, asks⟩ := readInclude_plain inConf f.entries keyword w hblank hname
  have taken : c.taken keyword.line name f.entries v = pure (includeFields f.entries included) := by
    rw [Context.taken, moved]
  have word : (keyword.kind.isInclude && c.syn != .json) = true := by
    rw [hkeyword, inConf.syn]
    rfl
  have member : MemberRead c f keyword (blank :: named :: w) m
      { f with entries := includeFields f.entries included } w m₁ := by
    refine ⟨fun p problem => ?_, by rw [hkeyword]; nofun, le, ?_⟩
    · rw [hkeyword] at problem
      cases problem
    · rw [readMember, if_pos word, asks, bind_assoc, run_bind_of_ok answered]
      simp only [taken, pure_bind]
      rfl
  exact .behind inConf breaks front member rfl (Nat.le_refl _) h

theorem isKeyPiece_eq (t : Item) : t.isKeyPiece = t.kind.isPiece := by
  unfold Item.isKeyPiece TokenKind.isPiece
  cases t.kind <;> rfl

/-- All that stands in front of a brace is the key. -/
theorem readKey_of_pieces (inConf : c.InConf) {key : Path} {t u : Item} {before rest : List Item}
    (spelled : Path.ofTokens? ((t :: before).map Item.kind) = .ok key)
    (pieces : ∀ k ∈ (t :: before).map Item.kind, k.isPiece = true) (brace : u.kind = .openBrace) :
    ∃ le, readKey c t (before ++ u :: rest) = pure (key, ⟨u :: rest, le⟩) := by
  rw [List.map_cons] at pieces
  obtain ⟨first, pieces⟩ := List.forall_mem_cons.1 pieces
  have pieces : ∀ x ∈ before, x.isKeyPiece = true := fun x hx => by
    rw [isKeyPiece_eq]
    exact pieces _ (List.mem_map_of_mem hx)
  have stops : u.isKeyPiece = false := by rw [Item.isKeyPiece, brace]
  have drop : (before ++ u :: rest).dropWhile Item.isKeyPiece = u :: rest := by
    rw [List.dropWhile_append_of_pos pieces, List.dropWhile_cons, stops]
    rfl
  have take : (before ++ u :: rest).takeWhile Item.isKeyPiece = before := by
    rw [List.takeWhile_append_of_pos pieces, List.takeWhile_cons, stops]
    exact List.append_nil _
  have firm : Firm (u :: rest) := .cons (by rw [brace]; rfl) rest
  have conf : c.syn ≠ .json := by
    rw [inConf.syn]
    decide
  have le : (u :: rest).length ≤ (before ++ u :: rest).length := by
    rw [List.length_append]
    omega
  refine ⟨le, ?_⟩
  unfold readKey
  rw [if_neg conf, if_pos (by rw [isKeyPiece_eq]; exact first)]
  simp only [drop, take, firm.checkFront inConf, pure_bind, pathOf, spelled]
  rfl

/-- A key and braces around fields are one field, whose value has those. -/
theorem FieldsRead.block {key : Path} {kinds ks : List TokenKind} {P : Entries Value → Prop}
    (inConf : c.InConf) (spelled : Path.ofTokens? kinds = .ok key)
    (pieces : ∀ k ∈ kinds, k.isPiece = true) (noInclude : ∀ k ∈ kinds.head?, k.isInclude = false)
    (items : s.map Item.kind = kinds ++ .openBrace :: ks)
    (inner : ∀ rest : List Item, rest.map Item.kind = ks →
      ∃ es, P es ∧ FieldsRead (c.enter key) true {} rest m es [] m') :
    ∃ es o comments, P es ∧ FieldsRead c false {} s m
      [(key.first, nest (withComments (.ofFields o es) comments) key.rest)] [] m' := by
  obtain ⟨before, behind, rfl, rfl, hbehind⟩ := List.map_eq_append_iff.1 items
  obtain ⟨u, rest, rfl, brace, hrest⟩ := List.map_eq_cons_iff.1 hbehind
  cases before with
  | nil => cases spelled
  | cons t before =>
    have word : t.kind.isInclude = false := noInclude _ rfl
    have firm : Firm (t :: (before ++ u :: rest)) := by
      refine firm_of_isKeyPiece ?_ _
      rw [isKeyPiece_eq]
      exact pieces _ List.mem_cons_self
    obtain ⟨le, keyed⟩ : ∃ le, readKey c t (before ++ u :: rest) = pure (key, ⟨u :: rest, le⟩) :=
      readKey_of_pieces inConf spelled pieces brace
    obtain ⟨_, skip⟩ := skipNewlines_of_firm inConf (.cons (by rw [brace]; rfl) rest : Firm (u :: rest))
    obtain ⟨_, missing⟩ := readSeparator_missing inConf (s := []) nofun
    have within : (c.enter key).InConf := ⟨inConf.syn, inConf.stop⟩
    obtain ⟨es, holds, fields⟩ := inner rest hrest
    obtain ⟨_, fields⟩ := fields.run within
    let v := withComments (.ofFields ((c.enter key).originAt u.line) es) (t.comments ++ u.comments)
    have value : (readValue (c.enter key) u t.comments rest).run.run m
        = (.ok (v, ⟨[], Nat.zero_le _⟩), m') := by
      rw [readValue]
      simp only [brace]
      rw [run_bind_of_ok fields]
      rfl
    have member : MemberRead c {} t (before ++ u :: rest) m
        { entries := [(key.first, nest v key.rest)], lastKey := some key } [] m' := by
      refine ⟨fun p problem => ?_, fun closes => ?_, Nat.zero_le _, ?_⟩
      · have stands := firm t rfl
        rw [problem] at stands
        cases stands
      · have first := pieces _ List.mem_cons_self
        rw [closes] at first
        cases first
      · rw [readMember, word, Bool.false_and, if_neg Bool.false_ne_true, readField]
        simp only [keyed, skip, pure_bind, brace, inConf.syn]
        rw [run_bind_of_ok value]
        rfl
    exact ⟨es, _, _, holds, .last firm.dropWhile member ⟨_, missing⟩ .stop⟩

/-! ### Roots without braces -/

/-- Nothing is left of a text that no brace closes. -/
theorem FieldsRead.eq_nil (h : FieldsRead c false f s m es r m') : r = [] := by
  induction h with
  | none _ closes => cases closes; rfl
  | last _ _ _ closes => cases closes; rfl
  | more _ _ _ _ ih => exact ih

theorem readRoot_braceless (conf : c.syn = .conf) {le : r.length ≤ s.length}
    (skip : skipNewlines c s = pure ⟨r, le⟩)
    (braceless : ∀ t ∈ r.head?, t.kind.opensContainer = false) :
    readRoot c s = (do
      let (fields, q) ← readFields c false {} r
      let p ← skipNewlines c q.val
      match p.val with
      | [] => return .ofFields (c.originAt (c.front r).line) fields
      | t :: _ => throw (c.fail t (.trailing t.describe))) := by
  have syn : ¬ c.syn = .json := by
    rw [conf]
    decide
  unfold readRoot
  rw [skip]
  simp only [pure_bind, if_neg syn]
  cases r with
  | nil =>
    simp only [bind_assoc, pure_bind] <;> rfl
  | cons t rest =>
    have plain := braceless t rfl
    simp only [plain, Bool.false_eq_true, if_false, bind_assoc, pure_bind] <;> rfl

/-- A document that starts with neither brace nor bracket is an object of its fields. -/
theorem fieldsRead_of_readRoot (conf : c.syn = .conf) {v : Value}
    (braceless : ∀ t ∈ (s.dropWhile Item.isNewline).head?, t.kind.opensContainer = false)
    (run : (readRoot c s).run.run m = (.ok v, m')) :
    ∃ o es n, v = .ofFields o es ∧ FieldsRead c false {} s m es [] n := by
  have opening := run
  unfold readRoot at opening
  obtain ⟨⟨r, le⟩, m₁, skips, -⟩ := exists_run_of_bind opening
  obtain ⟨skip, -, front, -⟩ := skipNewlines_of_run skips
  change s.dropWhile Item.isNewline = r at front
  rw [front] at braceless
  rw [readRoot_braceless conf skip braceless] at run
  obtain ⟨⟨es, q, hq⟩, n, fields, run⟩ := exists_run_of_bind run
  obtain ⟨⟨p, hp⟩, m₂, -, run⟩ := exists_run_of_bind run
  have read := fieldsRead_of_run conf fields
  cases read.eq_nil
  have again : s.dropWhile Item.isNewline = r.dropWhile Item.isNewline := by
    rw [← front, List.dropWhile_idempotent]
  cases p with
  | nil =>
    cases run
    exact ⟨_, es, n, rfl, read.of_front again⟩
  | cons => cases run

/-- Fields behind each other are a document. -/
theorem FieldsRead.readRoot (inConf : c.InConf) (h : FieldsRead c false {} s m es [] m') :
    ∃ o, (readRoot c s).run.run m = (.ok (.ofFields o es), m') := by
  obtain ⟨le, check⟩ := skipNewlines_eq_check c (rfl : s.dropWhile Item.isNewline = _)
  have firm := h.firm inConf.syn
  rw [firm.checkFront inConf, pure_bind] at check
  have braceless : ∀ t ∈ (s.dropWhile Item.isNewline).head?, t.kind.opensContainer = false := by
    have key {f g : Fields} {t : Item} {rest q : List Item} {n n' : List IncludeRecord}
        (member : MemberRead c f t rest n g q n') : t.kind.opensContainer = false := by
      have piece := member.isKeyPiece inConf.syn
      rw [isKeyPiece_eq] at piece
      cases kind : t.kind <;> rw [kind] at piece <;> first | rfl | cases piece
    intro t ht
    cases h with
    | none front closes =>
      rw [front] at ht
      cases closes
      cases ht
    | last front member _ _ =>
      rw [front] at ht
      cases ht
      exact key member
    | more front member _ _ =>
      rw [front] at ht
      cases ht
      exact key member
  have whole : FieldsRead c false {} (s.dropWhile Item.isNewline) m es [] m' :=
    h.of_front (List.dropWhile_idempotent (p := Item.isNewline) s)
  obtain ⟨_, fields⟩ := whole.run inConf
  obtain ⟨_, skip⟩ := skipNewlines_of_firm inConf (s := []) nofun
  rw [readRoot_braceless inConf.syn check braceless, run_bind_of_ok fields]
  simp only [skip, pure_bind]
  exact ⟨_, rfl⟩

end Document

end Hocon
