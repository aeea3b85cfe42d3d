import Hocon.Proofs.Inquiring
import Hocon.Proofs.Lossless

/-!
# Where errors point

A malformed document is refused with an error that shows its reader where to look: a span of whole
characters of the text, and the line that it starts on (`parseText_points`).  Every such error is
raised at a token, and a token knows its span and its line, whatever comes before it.
-/

namespace Hocon

open Value

/-! ### Spans and lines -/

/-- The span is one of whole characters of the text, and starts on the line. -/
structure Text.Marks (text : List Char) (span : Span) (line : Nat) : Prop where
  order : span.start ≤ span.stop
  starts : IsBoundary text span.start
  stops : IsBoundary text span.stop
  line : line = 1 + (takeBytes span.start text).count '\n'

namespace Text

variable {text : List Char}

/-- A place in a text is not behind its end. -/
theorem IsBoundary.le {place : Nat} (h : IsBoundary text place) : place ≤ byteLength text := by
  obtain ⟨front, ⟨back, rfl⟩, rfl⟩ := h
  rw [byteLength_append]
  exact Nat.le_add_right _ _

theorem takeBytes_all (text : List Char) : takeBytes (byteLength text) text = text := by
  have whole := takeBytes_byteLength text []
  rwa [List.append_nil] at whole

theorem marks_of_covers {t : Token} (h : t.Covers text) : Marks text t.span t.line :=
  ⟨Nat.le_of_lt h.nonempty, h.starts, h.stops, h.line⟩

/-- Whatever token of a text, it stands on whole characters, or at an end. -/
theorem marks_ofText {syn : DocumentSyntax} {t : Token} (h : t ∈ Token.ofText syn text) :
    Marks text t.span t.line := by
  obtain ⟨inner, lossless⟩ := lossless_ofText syn text
  rw [lossless.ends] at h
  rcases List.mem_cons.1 h with rfl | h
  · have first : IsBoundary text 0 := ⟨[], List.nil_prefix, rfl⟩
    refine ⟨Nat.le_refl _, first, first, ?_⟩
    show 1 = 1 + (takeBytes 0 text).count '\n'
    rw [show takeBytes 0 text = [] from takeBytes_byteLength [] text]
    rfl
  rcases List.mem_append.1 h with inside | last
  · obtain ⟨covers, -, -, -⟩ := lossless.faithful t inside
    exact marks_of_covers covers
  · cases List.mem_singleton.1 last
    have last : IsBoundary text (byteLength text) := ⟨text, List.prefix_rfl, rfl⟩
    refine ⟨Nat.le_refl _, last, last, ?_⟩
    show 1 + text.count '\n' = 1 + (takeBytes (byteLength text) text).count '\n'
    rw [takeBytes_all]

end Text

namespace Document

/-! ### Errors of a document -/

/-- An error that a text has of its own: none is a broken promise, and one of a malformed document
points into the text, and has the origin of the line where it points. -/
def PointsInto (text : List Char) (o : Origin) (e : Error) : Prop :=
  (∀ breach, e ≠ .broken breach)
    ∧ ∀ place fault hint span, e = .parse place fault hint span →
      ∃ s line, span = some s ∧ s.stop ≤ Text.byteLength text ∧ Text.Marks text s line
        ∧ place = o.atLine line

theorem Own.pointsInto {syn : DocumentSyntax} {text : List Char} {o : Origin} {e : Error}
    (h : Own o (IsToken (Token.ofText syn text)) e) : PointsInto text o e := by
  cases h with
  | @item t ht fault hint shallow =>
    refine ⟨nofun, ?_⟩
    rintro _ _ _ _ ⟨⟩
    have marks : Text.Marks text t.span t.line := Text.marks_ofText ht
    exact ⟨t.span, t.line, rfl, marks.stops.le, marks, rfl⟩
  | path =>
    refine ⟨nofun, ?_⟩
    rintro _ _ _ _ ⟨⟩
  | type =>
    refine ⟨nofun, ?_⟩
    rintro _ _ _ _ ⟨⟩

/-! ### Texts without include statements -/

/-- A text in JSON, or one in which no token is the keyword, has no include statement. -/
theorem requestsIn_eq_nil {syn : DocumentSyntax} (origin : Origin) {text : String}
    (none : syn = .json ∨ ∀ t ∈ Token.ofText syn text.toList, t.kind.isInclude = false) :
    requestsIn syn origin text = [] := by
  rw [requestsIn, List.map_eq_nil_iff, List.eq_nil_iff_forall_not_mem]
  intro n hn
  obtain ⟨q, ⟨conf, t, stands, keyword, -⟩, -⟩ :=
    (inquires_read syn origin noting text).stated_of_note hn List.not_mem_nil
  rcases none with json | none
  · exact conf json
  · have plain := none ⟨t.kind, t.span, t.line⟩ stands
    rw [keyword] at plain
    cases plain

/-- **Parse errors point into the document.**  A text without include statements is read as an
object, or refused by an error that is no broken promise; and if that says where the text is
malformed, it has a span of whole characters and the line on which the span starts. -/
theorem parseText_points (files : FileTree) {o : ParseOptions} (syn : o.syn ≠ some .properties)
    {text : String} (alone : (ofText text).requests files o = []) (m : List IncludeRecord) :
    (∃ v, ((parseText files o text).run.run m).1 = .ok v ∧ v.fields?.isSome = true)
      ∨ ∃ e, ((parseText files o text).run.run m).1 = .error e
        ∧ PointsInto text.toList ((ofText text).originFor o) e := by
  have conf : (ofText text).syntaxFor o ≠ .properties := by
    unfold syntaxFor
    rcases h : o.syn with _ | _ | _ | _ <;> first | (exact absurd h syn) | nofun
  rw [requests_eq rfl conf, requestsIn, List.map_eq_nil_iff] at alone
  have depth : (ofText text).chain.length < maxIncludeDepth := Nat.zero_lt_succ _
  have content : (ofText text).content files = .ok text := rfl
  rw [parseText, load_eq_read _ depth content conf]
  have inquires := inquires_read ((ofText text).syntaxFor o) ((ofText text).originFor o)
    ((ofText text).answers files o.shelfDepth depth o) text
  rcases run : (Document.read _ _ ((ofText text).answers _ _ _ _) text).run.run m with ⟨e | v, m'⟩
  · rw [run_bind_of_error run]
    rcases inquires.failure run [] with ⟨own, -⟩ | ⟨q, -, -, noted⟩
    · exact .inr ⟨e, rfl, own.pointsInto⟩
    · rw [alone] at noted
      cases noted
  · rw [run_bind_of_ok run]
    unfold checkRoot
    split
    · next object => exact .inl ⟨v, rfl, object⟩
    · exact .inr ⟨_, rfl, (Own.type _ _ : Own _ (IsToken (Token.ofText .conf text.toList)) _).pointsInto⟩

/-- The brace where a value is missing is the eleventh byte, on the second line. -/
theorem parseText_points_example :
    let text := "a = 1\nb = \x7d"
    (ofText text).requests (.ofNames []) {} = []
      ∧ ∃ e, ((parseText (.ofNames []) {} text).run.run []).1 = .error e
        ∧ PointsInto text.toList ((ofText text).originFor {}) e
        ∧ e.span? = some ⟨10, 11⟩ ∧ (e.origin?.bind Origin.firstLine) = some 2 := by
  intro text
  have alone : (ofText text).requests (.ofNames []) {} = [] := by decide +kernel
  have place : (((parseText (.ofNames []) {} text).run.run []).1.map fun _ => ()).mapError
      (fun e => (e.span?, e.origin?.bind Origin.firstLine)) = .error (some ⟨10, 11⟩, some 2) := by
    rw [parseText, Document.load, dif_pos (by decide)]
    decide +kernel
  refine ⟨alone, ?_⟩
  rcases parseText_points (.ofNames []) (o := {}) (by decide) alone [] with
    ⟨v, parsed, -⟩ | ⟨e, error, points⟩
  · rw [parsed] at place
    cases place
  · rw [error] at place
    obtain ⟨span, line⟩ := Prod.ext_iff.1 (Except.error.inj place)
    exact ⟨e, error, points, span, line⟩

end Document

end Hocon
