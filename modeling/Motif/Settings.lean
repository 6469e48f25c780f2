import Motif.Pattern.Document

/-!
Settings and their document form. What a document leaves out has its default, and what it has beyond
is passed over. How an alternative without content may be written, apart from its bare name, depends
on where the document comes from: `empty` tells which contents count as none.
-/
set_option autoImplicit false
namespace Motif

open Document (record fieldOr?)

structure EngineSettings where
  /-- the backend of queries that ask for none -/
  defaultBackend : Backend := .rete
  reportIssues : Bool := true
  /-- whether listeners are told of the net change of each match rather than of every change -/
  coalesce : Bool := true
  /-- how often in a row writes queued by listeners are run -/
  maxRounds : Nat := 1024
  deriving DecidableEq, Repr

structure LogSettings where
  level : String := "info"
  format : String := "text"
  deriving DecidableEq, Repr

structure Settings where
  engine : EngineSettings := {}
  logging : LogSettings := {}
  deriving DecidableEq, Repr

namespace EngineSettings

def toDocument (s : EngineSettings) : Document :=
  record [("default_backend", .text s.defaultBackend.name),
    ("report_integrity_issues", .bool s.reportIssues),
    ("coalesce_listener_events", .bool s.coalesce), ("max_deferred_rounds", .int s.maxRounds)]

def ofDocument? (empty : Document → Bool) (d : Document) : Option EngineSettings := do
  let base : EngineSettings := {}
  let [backend, report, coalesce, rounds] ← d.leading? ["default_backend",
    "report_integrity_issues", "coalesce_listener_events", "max_deferred_rounds"] | none
  let backend? (d : Document) : Option Backend := (d.tag? empty).bind Backend.ofName?
  return {
    defaultBackend := ← fieldOr? backend? base.defaultBackend backend
    reportIssues := ← fieldOr? Document.bool? base.reportIssues report
    coalesce := ← fieldOr? Document.bool? base.coalesce coalesce
    maxRounds := ← fieldOr? Document.nat? base.maxRounds rounds }

end EngineSettings

namespace LogSettings

def toDocument (s : LogSettings) : Document :=
  record [("level", .text s.level), ("format", .text s.format)]

def ofDocument? (d : Document) : Option LogSettings := do
  let base : LogSettings := {}
  let [level, format] ← d.leading? ["level", "format"] | none
  return { level := ← fieldOr? Document.string? base.level level
           format := ← fieldOr? Document.string? base.format format }

end LogSettings

namespace Settings

def toDocument (s : Settings) : Document :=
  record [("engine", s.engine.toDocument), ("logging", s.logging.toDocument)]

def ofDocument? (empty : Document → Bool) (d : Document) : Option Settings := do
  let [engine, logging] ← d.leading? ["engine", "logging"] | none
  return { engine := ← fieldOr? (EngineSettings.ofDocument? empty) {} engine
           logging := ← fieldOr? LogSettings.ofDocument? {} logging }

end Settings
end Motif
