import Motif.Document
import Motif.Engine.Basic

set_option autoImplicit false
namespace Motif

namespace NetworkStatistics

def kindsDocument (s : NetworkStatistics) : Document :=
  .record (s.nodesByKind.map fun k => (k.1, .int k.2))

def toDocument (s : NetworkStatistics) : Document :=
  .record [("nodes", .int s.nodes), ("nodes_by_kind", s.kindsDocument),
    ("indexers", .int s.indexes), ("indexed_tuples", .int s.indexedTuples),
    ("stored_tuples", .int s.storedTuples), ("propagated_events", .int s.propagated),
    ("indexer_lookups", .int s.lookups)]

end NetworkStatistics

structure EngineStatistics where
  /-- registered queries -/
  queries : Nat
  /-- queries in the network -/
  productions : Nat
  searchPlans : Nat
  listeners : Nat
  network : NetworkStatistics
  deriving DecidableEq, Repr

def EngineStatistics.toDocument (s : EngineStatistics) : Document :=
  .record [("registered_queries", .int s.queries), ("rete_queries", .int s.productions),
    ("search_plans", .int s.searchPlans), ("listeners", .int s.listeners),
    ("network", s.network.toDocument)]

def Engine.statistics (e : Engine) : EngineStatistics where
  queries := e.catalog.queries.size
  productions := e.productions.size
  searchPlans := e.searchPlans.size
  listeners := e.subscriptions.length
  network := e.network.statistics

end Motif
