import LogCensus.Csv.Writer

/-!
A writer of tables at work on a sink. A buffer that the sink refuses stays with the writer, which
offers it once more when it is given up.
-/

namespace LogCensus.Csv

structure Session where
  taken : List UInt8 := []
  buffer : Buffer := {}

namespace Session

def handOn (sink : Sink) (held : Nat) (medium : Medium) (session : Session) :
    Session × Option WriteFault :=
  if sink.takes (held + session.taken.length) session.buffer.waiting.length then
    ({ taken := session.taken ++ session.buffer.waiting.reverse }, none)
  else (session, some (.full medium))

def onward (outcome : Session × Option WriteFault)
    (next : Session → Session × Option WriteFault) : Session × Option WriteFault :=
  match outcome with
  | (session, none) => next session
  | (session, some fault) => (session, some fault)

/-- An atom for which there is no room has the buffer handed on first. -/
def put (sink : Sink) (held : Nat) (session : Session) (atom : Atom) :
    Session × Option WriteFault :=
  if bufferSize < session.buffer.count + atom.length then
    onward (session.handOn sink held .csv) fun next =>
      ({ next with buffer := ⟨atom.reverse, atom.length⟩ }, none)
  else
    ({ session with
      buffer := ⟨atom.reverse ++ session.buffer.waiting, session.buffer.count + atom.length⟩ }, none)

def putAll (sink : Sink) (held : Nat) (session : Session) : List Atom → Session × Option WriteFault
  | [] => (session, none)
  | atom :: rest => onward (session.put sink held atom) fun next => next.putAll sink held rest

def obeyAll (sink : Sink) (held : Nat) (session : Session) :
    List Command → Session × Option WriteFault
  | [] => (session, none)
  | .record fields :: rest =>
    onward (session.putAll sink held (recordAtoms (fields.map Text.Utf8.encodeString))) fun next =>
      next.obeyAll sink held rest
  | .flush :: rest =>
    onward (session.handOn sink held .plain) fun next => next.obeyAll sink held rest

/-- What a sink takes of a table, and the fault that ends it early. The buffer that waits when the
writer is given up is handed on, and nobody is told of a failure of that. -/
def write (sink : Sink) (held : Nat) (commands : List Command) : List UInt8 × Option WriteFault :=
  let (session, fault) := ({} : Session).obeyAll sink held commands
  ((session.handOn sink held .plain).1.taken, fault)

end Session

end LogCensus.Csv
