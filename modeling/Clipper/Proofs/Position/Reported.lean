import Clipper.Command.Outcome
import Clipper.Proofs.Position.Tiling

/-!
The spans of reports. Beside its own text a diagnostic keeps its span, which is that of a
token or empty; beside any other text the span is cut off at the end.
-/

namespace Clipper

/-- What a report labels. -/
def Report.span (r : Report) : Span := ⟨r.offset, r.offset + r.length⟩

/-- The span is between characters, and covers one token of the text or nothing. -/
def Covers (source file : String) (s : Span) : Prop :=
  ∃ piece, Slices source.toList s piece ∧
    (piece = [] ∨ ∃ t ∈ tokens source file, t.span = s ∧ t.literal.toList = piece)

/-- What a report labels lies inside a text. -/
structure Report.Fits (text : String) (r : Report) : Prop where
  offset_le : r.offset ≤ text.utf8ByteSize
  stop_le : r.offset + r.length ≤ text.utf8ByteSize

theorem Report.fits_ofDiagnostic (d : Diagnostic) (name text : String) :
    (ofDiagnostic d name text).Fits text :=
  ⟨Nat.min_le_right _ _, offset_add_length_le_size d name text⟩

/-- A span inside the text is not cut off. -/
theorem Report.span_ofDiagnostic {d : Diagnostic} {name source : String} {piece : List Char}
    (h : Slices source.toList d.span piece) : (ofDiagnostic d name source).span = d.span := by
  obtain ⟨before, behind, htext, hstart, hstop⟩ := h
  have hsize := congrArg Place.byteSize htext
  rw [Place.byteSize_toList, Place.byteSize_append, Place.byteSize_append] at hsize
  rw [Place.byteSize_append] at hstop
  have hoffset : min d.span.start source.utf8ByteSize = d.span.start := by omega
  have hlength : d.span.start + min d.span.size (source.utf8ByteSize - d.span.start) =
      d.span.stop := by
    rw [Span.size]
    omega
  simp only [span, ofDiagnostic]
  rw [hoffset, hlength]

theorem Token.Located.slices {text : List Char} {t : Token} (h : t.Located text) :
    Slices text t.span t.literal.toList := by
  obtain ⟨before, behind, htext, hplace, hstop⟩ := h.exists_piece
  have hstart : t.span.start = (Place.start.past before).offset := congrArg Place.offset hplace
  rw [Place.past_offset] at hstart hstop
  exact ⟨before, behind, htext, by simp [hstart, Place.start], by simp [hstop, Place.start]⟩

/-- Between two characters nothing is covered. -/
theorem Slices.empty {text piece : List Char} {s : Span} (h : Slices text s piece) :
    Slices text ⟨s.start, s.start⟩ [] := by
  obtain ⟨before, behind, htext, hstart, -⟩ := h
  exact ⟨before, piece ++ behind, htext, hstart, by rw [List.append_nil, hstart]⟩

theorem covers_of_check {x : Externals} {source file : String} {d : Diagnostic}
    (hd : d ∈ (Check.ofSource x source file).diagnostics) : Covers source file d.span := by
  obtain ⟨f, hf, rfl⟩ : ∃ f ∈ (Check.ofSource x source file).parsed.faults ++
      (Check.ofSource x source file).analysis.faults, f.diagnostic = d := by
    simpa [Check.diagnostics, Parsed.diagnostics, Analysis.diagnostics, or_and_right,
      exists_or] using hd
  rw [f.diagnostic_start.1]
  rcases marks_of_check hf with hf | ⟨t, ht, rfl⟩
  · exact ⟨_, hf.written.located.slices, .inr ⟨_, hf.mem, rfl, rfl⟩⟩
  · exact ⟨[], (tokens_located source file t ht).slices.empty, .inl rfl⟩

/-- Beside its own text each diagnostic of a check is reported with the span it has, and that
covers one token or nothing. Beside whatever other text no report reaches behind the end. -/
theorem reportsOn_spans (x : Externals) (source file name : String) :
    List.Forall₂ (fun d r => r.span = d.span ∧ Covers source file d.span)
        (Check.ofSource x source file).diagnostics
        (Outcome.reportsOn (Check.ofSource x source file).diagnostics name source) ∧
      ∀ text, (Outcome.reportsOn (Check.ofSource x source file).diagnostics name text).Forall
        (Report.Fits text) := by
  constructor
  · rw [Outcome.reportsOn, List.forall₂_map_right_iff, List.forall₂_same]
    intro d hd
    obtain ⟨piece, hslices, hpiece⟩ := covers_of_check hd
    exact ⟨Report.span_ofDiagnostic hslices, piece, hslices, hpiece⟩
  · intro text
    rw [Outcome.reportsOn, List.forall_iff_forall_mem, List.forall_mem_map]
    exact fun d _ => Report.fits_ofDiagnostic d name text

end Clipper
