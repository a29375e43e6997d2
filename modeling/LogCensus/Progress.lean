import LogCensus.Report

/-!
How far an analysis has got.
-/

namespace LogCensus

structure Progress where
  files : UInt64 := 0
  done : UInt64 := 0
  failed : UInt64 := 0
  entries : UInt64 := 0
  bytes : UInt64 := 0
  current : Path := ⟨[]⟩
  elapsed : Time.Duration := .none

namespace Progress

def finished (progress : Progress) : UInt64 := progress.done + progress.failed

def fraction (progress : Progress) : Binary64 :=
  if progress.files = 0 then Binary64.zeroOf false
  else Binary64.ofWord progress.finished / Binary64.ofWord progress.files

def throughput (progress : Progress) : Binary64 :=
  Summary.throughputOf progress.entries progress.elapsed

def recordTally (progress : Progress) (tally : Tally) : Progress :=
  { progress with
    done := progress.done + 1
    entries := progress.entries + tally.entries
    bytes := progress.bytes + tally.bytesRead
    current := tally.path }

def recordFailure (progress : Progress) (failure : Failure) : Progress :=
  { progress with
    failed := progress.failed + 1
    current := failure.path }

end Progress

end LogCensus
