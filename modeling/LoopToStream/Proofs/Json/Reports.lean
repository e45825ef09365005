import LoopToStream.Json.Report
import LoopToStream.Proofs.Json.Reading
import LoopToStream.Proofs.Json.Trees

/-!
# Reports survive being written

A report is written as text and read back as the same report (`Report.survives_text`). Two steps are
put together for it:

* the text is read back as the JSON value that was written (`Json.ofText?_render`), which says that
  layout and escapes are undone;
* the value is read back as the data that it was made from (`Decode.Reads`). A record is read field
  by field, each of which is there once (`Json.exists_record`), and numbers keep to their widths.

Ids are natural numbers here and are written as such, but only those of 32 bits are accepted when
they are read. That is what is asked of a report (`Report.IdsFit`).
-/

namespace LoopToStream

/-! ### Data -/

namespace Decode.Reads

open Json

theorem actionKind (kind : ActionKind) : Decode.Reads kind := by
  cases kind <;> rfl

theorem span (span : Span) : Decode.Reads span := (Decode.ReadsAll.span span).reads

/-- A finding whose ids fit into 32 bits. -/
theorem finding {finding : Finding} (hanchor : finding.anchor.index < UInt32.size)
    (hloop : finding.loop.index < UInt32.size) : Decode.Reads finding := by
  obtain ⟨record, hrecord, hfields⟩ : ∃ record,
      (encode finding).record?
        ["kind", "anchor", "loop_stmt", "revision", "span", "message", "fix_name"] = some record ∧
        record.fields = [("kind", encode finding.kind), ("anchor", encode finding.anchor),
          ("loop_stmt", encode finding.loop), ("revision", encode finding.revision),
          ("span", encode finding.span), ("message", encode finding.message),
          ("fix_name", encode finding.fixName)] := exists_record rfl (by decide)
  -- each field is looked up by its name, and its value is read back
  have hkind : record.get? "kind" = some finding.kind :=
    Record.get?_of_lookup hfields rfl (actionKind _)
  have hanchor : record.get? "anchor" = some finding.anchor :=
    Record.get?_of_lookup hfields rfl (nodeId hanchor)
  have hloop : record.get? "loop_stmt" = some finding.loop :=
    Record.get?_of_lookup hfields rfl (nodeId hloop)
  have hrevision : record.get? "revision" = some finding.revision :=
    Record.get?_of_lookup hfields rfl (uint64 _)
  have hspan : record.get? "span" = some finding.span :=
    Record.get?_of_lookup hfields rfl (span _)
  have hmessage : record.get? "message" = some finding.message :=
    Record.get?_of_lookup hfields rfl (string _)
  have hfix : record.get? "fix_name" = some finding.fixName :=
    Record.get?_of_lookup hfields rfl (string _)
  show ((encode finding).record? _).bind _ = _
  simp [hrecord, hkind, hanchor, hloop, hrevision, hspan, hmessage, hfix]

end Decode.Reads

/-! ### Reports -/

/-- The ids that a report holds fit into 32 bits. -/
def Report.IdsFit (report : Report) : Prop :=
  ∀ finding ∈ report.findings,
    finding.anchor.index < UInt32.size ∧ finding.loop.index < UInt32.size

instance (report : Report) : Decidable report.IdsFit :=
  inferInstanceAs (Decidable (∀ finding ∈ report.findings,
    finding.anchor.index < UInt32.size ∧ finding.loop.index < UInt32.size))

theorem Decode.Reads.report {report : Report} (h : report.IdsFit) : Decode.Reads report := by
  obtain ⟨record, hrecord, hfields⟩ : ∃ record,
      (encode report).record? ["inspection", "findings", "canceled"] = some record ∧
        record.fields = [("inspection", encode report.inspection),
          ("findings", encode report.findings), ("canceled", encode report.canceled)] :=
    Json.exists_record rfl (by decide)
  have hinspection : record.get? "inspection" = some report.inspection :=
    Json.Record.get?_of_lookup hfields rfl (string _)
  -- the ids are within the findings
  have hfindings : record.get? "findings" = some report.findings :=
    Json.Record.get?_of_lookup hfields rfl
      (list fun finding hfinding =>
        Decode.Reads.finding (h finding hfinding).1 (h finding hfinding).2)
  have hcanceled : record.get? "canceled" = some report.canceled :=
    Json.Record.get?_of_lookup hfields rfl (bool _)
  show ((encode report).record? _).bind _ = _
  simp [hrecord, hinspection, hfindings, hcanceled]

namespace Json.Readable

theorem span (span : Span) : (encode span).Readable := by
  show (Json.object [("file", encode span.file), ("lo", encode span.lo),
    ("hi", encode span.hi)]).Readable
  refine .object ?_
  simp only [List.forall_mem_cons]
  exact ⟨.int _, .int _, .int _, by simp⟩

theorem finding (finding : Finding) : (encode finding).Readable := by
  show (Json.object [("kind", encode finding.kind), ("anchor", encode finding.anchor),
    ("loop_stmt", encode finding.loop), ("revision", encode finding.revision),
    ("span", encode finding.span), ("message", encode finding.message),
    ("fix_name", encode finding.fixName)]).Readable
  refine .object ?_
  simp only [List.forall_mem_cons]
  exact ⟨.str _, .int _, .int _, .int _, span _, .str _, .str _, by simp⟩

theorem report (report : Report) : (encode report).Readable := by
  have hfindings : (encode report.findings).Readable := by
    refine .list fun item hitem => ?_
    obtain ⟨f, -, rfl⟩ := List.mem_map.1 hitem
    exact finding f
  show (Json.object [("inspection", encode report.inspection), ("findings", encode report.findings),
    ("canceled", encode report.canceled)]).Readable
  refine .object ?_
  simp only [List.forall_mem_cons]
  exact ⟨.str _, hfindings, .bool _, by simp⟩

end Json.Readable

namespace Report

/-- A report is read from its own text. -/
theorem ofText?_toText {report : Report} (h : report.IdsFit) :
    ofText? report.toText = some report := by
  have hjson : Json.ofText? report.toText = some (encode report) :=
    Json.ofText?_render (.report report) _
  rw [ofText?, hjson]
  exact Decode.Reads.report h

/-- **A report survives its text.** It is read from its own text as what it was, and so no other
report has the same text. -/
theorem survives_text (report : Report) (h : report.IdsFit) :
    ofText? report.toText = some report ∧
      ∀ other : Report, other.IdsFit → other.toText = report.toText → other = report := by
  refine ⟨ofText?_toText h, fun other hother htext => ?_⟩
  have hread : ofText? other.toText = some other := ofText?_toText hother
  rw [htext, ofText?_toText h] at hread
  exact (Option.some.inj hread).symm

/-- A report full of what a text could stumble over: quotes, a backslash, a line end and a character
below the blank, JSON, a character of two units, and numbers at the end of their range. -/
def unruly : Report where
  inspection := "say \"\\\" \x01"
  findings := [
    { kind := .generalAction
      anchor := ⟨4294967295⟩
      loop := ⟨0⟩
      revision := 18446744073709551615
      span := ⟨18446744073709551615, 0, 4294967295⟩
      message := "\x7b\"findings\": []\x7d\n"
      fixName := "𝄞" },
    { kind := .accumulation
      anchor := ⟨1⟩
      loop := ⟨2⟩
      revision := 0
      span := ⟨0, 7, 3⟩
      message := ""
      fixName := "\t/" }]
  canceled := true

theorem survives_unruly :
    unruly.IdsFit ∧ ofText? unruly.toText = some unruly ∧
      ∀ other : Report, other.IdsFit → other.toText = unruly.toText →
        other = unruly :=
  have hfit : unruly.IdsFit := by decide
  ⟨hfit, survives_text _ hfit⟩

end Report

end LoopToStream
