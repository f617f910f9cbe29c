import CrossHart.Text.Percent

/-!
# Statistics

What a machine counted, and the report of it.
-/

namespace CrossHart

/-- The counters of a machine. -/
structure Stats where
  retired : Nat := 0
  compiled : Nat := 0
  failures : Nat := 0
  /-- The number of times compiled code was entered from the engine. -/
  entries : Nat := 0
  interpreted : Nat := 0
  links : Nat := 0
  unlinks : Nat := 0
  evictions : Nat := 0
  flushes : Nat := 0
  hits : Nat := 0
  misses : Nat := 0
  deriving DecidableEq, Repr

/-- The report, without a newline at its end. -/
def Stats.text (s : Stats) : String :=
  "\n".intercalate
    ["=== rvjit stats ===",
      "instructions retired: " ++ s.retired.repr,
      "blocks compiled:      " ++ s.compiled.repr,
      "compile failures:     " ++ s.failures.repr,
      "native entries:       " ++ s.entries.repr,
      "interpreted insns:    " ++ s.interpreted.repr,
      "fixups patched:       " ++ s.links.repr ++ " (" ++ s.unlinks.repr ++ " reverted)",
      "evictions:            " ++ s.evictions.repr,
      "cache flushes:        " ++ s.flushes.repr,
      "tlb hits/misses:      " ++ s.hits.repr ++ "/" ++ s.misses.repr ++ " (" ++
        Text.percent s.hits (s.hits + s.misses) ++ "% hit)"]

end CrossHart
