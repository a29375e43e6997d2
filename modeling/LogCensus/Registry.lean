import LogCensus.Format.AccessLog
import LogCensus.Format.Application
import LogCensus.Format.JsonLines

/-!
Formats in the order in which they are tried. A format registered again under the same kind takes
the place of the old one.
-/

namespace LogCensus

structure Registry where
  formats : List Format := []

namespace Registry

def empty : Registry := {}

def placed (format : Format) : List Format → List Format
  | [] => [format]
  | known :: rest =>
    if known.kind = format.kind then format :: rest else known :: placed format rest

def register (registry : Registry) (format : Format) : Registry :=
  ⟨placed format registry.formats⟩

def get? (registry : Registry) (kind : String) : Option Format :=
  registry.formats.find? fun format => Text.sameLetters format.kind.toList kind.toList

def detect? (registry : Registry) (line : String) : Option Format :=
  registry.formats.find? fun format => format.probe line

def kinds (registry : Registry) : List String := registry.formats.map Format.kind

def describe (registry : Registry) : String :=
  "Registry \x7b parsers: [" ++ ", ".intercalate (registry.formats.map Format.describe) ++ "] \x7d"

def standard : Registry :=
  ((empty.register Format.application).register Format.jsonLines).register Format.accessLog

end Registry

end LogCensus
