import Mathlib
/-!
# `Histogram<MaxValueNs>` (`telemetry/histogram.hpp`)

| here | there |
| --- | --- |
| `new`        | the constructor, which calls `reset` (`histogram.hpp:15`, `:33`) |
| `record`     | `record` (`histogram.hpp:19`) |
| `max`, `min` | the getters of these names (`histogram.hpp:44`) |
| `scan`       | the loop of `percentile` (`histogram.hpp:62`): nothing when it runs to its end |
| `percentile` | `percentile` (`histogram.hpp:53`), its product over the rationals |

`buckets_` is a function; `record` writes it below `MaxValueNs` only, and `scan` reads it there. All counters are
`uint64_t` and wrap.
-/

namespace TradeCore

structure Histogram (maxValueNs : UInt32) where
  buckets : ℕ → UInt64
  overflowCount : UInt64
  count : UInt64
  sumNs : UInt64
  maxNs : UInt64
  minNs : UInt64

namespace Histogram

variable {maxValueNs : UInt32}

def new : Histogram maxValueNs := ⟨fun _ => 0, 0, 0, 0, 0, UInt64.ofNat (2 ^ 64 - 1)⟩

def record (h : Histogram maxValueNs) (valueNs : UInt64) : Histogram maxValueNs :=
  let h : Histogram maxValueNs :=
    if valueNs < maxValueNs.toUInt64 then
      { h with buckets := Function.update h.buckets valueNs.toNat (h.buckets valueNs.toNat + 1) }
    else { h with overflowCount := h.overflowCount + 1 }
  let h : Histogram maxValueNs := { h with count := h.count + 1, sumNs := h.sumNs + valueNs }
  let h : Histogram maxValueNs := if valueNs > h.maxNs then { h with maxNs := valueNs } else h
  if valueNs < h.minNs then { h with minNs := valueNs } else h

def max (h : Histogram maxValueNs) : UInt64 := if h.count = 0 then 0 else h.maxNs

def min (h : Histogram maxValueNs) : UInt64 := if h.count = 0 then 0 else h.minNs

/-- The buckets that are left, from bucket `i` on. -/
def scan (h : Histogram maxValueNs) (targetCount : UInt64) : (left i : ℕ) → (cumulative : UInt64) → Option UInt64
  | 0, _, _ => none
  | left + 1, i, cumulative =>
    let cumulative := cumulative + h.buckets i
    if cumulative ≥ targetCount then some (UInt64.ofNat i) else scan h targetCount left (i + 1) cumulative

/-- `static_cast<uint64_t>((p / 100.0) * count_)`, and at least 1. -/
def targetCount (h : Histogram maxValueNs) (p : ℚ) : UInt64 :=
  let targetCount := UInt64.ofNat ⌊p / 100 * h.count.toNat⌋₊
  if targetCount = 0 then 1 else targetCount

def percentile (h : Histogram maxValueNs) (p : ℚ) : UInt64 :=
  if h.count = 0 then 0
  else if p ≤ 0 then h.min
  else if p ≥ 100 then h.max
  else (h.scan (h.targetCount p) maxValueNs.toNat 0 0).getD h.max

/-- The histogram after these samples. -/
def recordAll (samples : List UInt64) : Histogram maxValueNs := samples.foldl record new

end Histogram

end TradeCore
