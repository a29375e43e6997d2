import LogCensus.Entry

/-!
Ranges of timestamps, both ends belonging to them. An entry without a timestamp comes before
every bound: it fails a lower one and passes an upper one.
-/

namespace LogCensus

open Time (Instant)

structure Filter where
  lower : Option Instant := none
  upper : Option Instant := none
  deriving DecidableEq

namespace Filter

def isEnabled (filter : Filter) : Bool := filter.lower.isSome || filter.upper.isSome

def passesLower (filter : Filter) (timestamp : Option Instant) : Bool :=
  match filter.lower, timestamp with
  | none, _ => true
  | some _, none => false
  | some lower, some instant => lower.atMost instant

def passesUpper (filter : Filter) (timestamp : Option Instant) : Bool :=
  match filter.upper, timestamp with
  | some upper, some instant => instant.atMost upper
  | _, _ => true

def admits (filter : Filter) (timestamp : Option Instant) : Bool :=
  filter.passesLower timestamp && filter.passesUpper timestamp

def toJson (filter : Filter) : Json :=
  .object [("from", Json.ofOption Json.ofInstant filter.lower),
    ("to", Json.ofOption Json.ofInstant filter.upper)]

def record : Json.Record Filter Filter where
  name := "struct DateFilter"
  members := [
    Json.member "from" .defaulted (Json.readOptional Json.readInstant)
      fun filter value => { filter with lower := value },
    Json.member "to" .defaulted (Json.readOptional Json.readInstant)
      fun filter value => { filter with upper := value }]
  blank := {}
  finish := .ok

def read : Json.Reader Filter := record.read

end Filter

end LogCensus
