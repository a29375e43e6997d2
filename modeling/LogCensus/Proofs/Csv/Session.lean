import LogCensus.Csv.Session
import LogCensus.Proofs.Sink

/-!
A writer of tables that offers its buffer again when it is given up hands on no more than its plan:
the sink refused that buffer before, and has taken nothing since.
-/

namespace LogCensus.Csv.Session

variable {sink : Sink} {held : Nat} {session next : Session} {ran : List UInt8 × Option WriteFault}
  {buffer : Buffer} {fault : Option WriteFault}

/-- How a session that had `taken` so much goes on, where a sink takes some of a plan: unless a fault
ends it, a buffer is left; after a fault, the sink does not take what is left. -/
structure Follows (sink : Sink) (held : Nat) (taken : List UInt8)
    (outcome : Session × Option WriteFault) (ran : List UInt8 × Option WriteFault)
    (buffer : Buffer) : Prop where
  taken : outcome.1.taken = taken ++ ran.1
  fault : outcome.2 = ran.2
  left : outcome.2 = none → outcome.1.buffer = buffer
  refused : outcome.2 ≠ none →
    sink.takes (held + outcome.1.taken.length) outcome.1.buffer.waiting.length = false

theorem follows_nil (session : Session) :
    Follows sink held session.taken (session, none) (sink.run (held + session.taken.length) [])
      session.buffer where
  taken := (List.append_nil _).symm
  fault := rfl
  left := fun _ => rfl
  refused := fun faulty => absurd rfl faulty

theorem follows_handOn (session : Session) (medium : Medium) :
    Follows sink held session.taken (session.handOn sink held medium)
      (sink.run (held + session.taken.length) [session.buffer.flushed medium]) {} := by
  unfold handOn Buffer.flushed
  simp only [Sink.run, List.length_reverse]
  by_cases room : sink.takes (held + session.taken.length) session.buffer.waiting.length = true
  · rw [if_pos room, if_pos room]
    exact ⟨by rw [List.append_nil], rfl, fun _ => rfl, fun faulty => absurd rfl faulty⟩
  · rw [if_neg room, if_neg room]
    refine ⟨(List.append_nil _).symm, rfl, ?_, fun _ => eq_false_of_ne_true room⟩
    rintro ⟨⟩

/-- Two plans one after the other: the second is begun only if the first does not fail. -/
theorem Follows.onward {taken : List UInt8} {outcome : Session × Option WriteFault}
    {later : Session → Session × Option WriteFault} {steps more : List WriteStep}
    {between : Buffer}
    (first : Follows sink held taken outcome (sink.run (held + taken.length) steps) between)
    (second : ∀ next : Session, next.buffer = between → Follows sink held next.taken (later next)
      (sink.run (held + next.taken.length) more) buffer) :
    Follows sink held taken (Session.onward outcome later)
      (sink.run (held + taken.length) (steps ++ more)) buffer := by
  obtain ⟨next, fault⟩ := outcome
  obtain ⟨same, faults, left, refused⟩ := first
  rw [Sink.run_append]
  cases ran : sink.run (held + taken.length) steps with
  | mk octets other =>
    rw [ran] at same faults
    obtain rfl : fault = other := faults
    cases fault with
    | none =>
      obtain ⟨allTaken, allFaults, allLeft, allRefused⟩ := second next (left rfl)
      have length : held + next.taken.length = held + taken.length + octets.length := by
        rw [same, List.length_append, Nat.add_assoc]
      rw [length] at allTaken allFaults
      exact ⟨by rw [Session.onward, allTaken, same, List.append_assoc], allFaults, allLeft,
        allRefused⟩
    | some fault => exact ⟨same, rfl, nofun, refused⟩

theorem follows_put (session : Session) (atom : Atom) :
    Follows sink held session.taken (session.put sink held atom)
      (sink.run (held + session.taken.length) (session.buffer.add atom).2)
      (session.buffer.add atom).1 := by
  unfold put Buffer.add
  by_cases full : bufferSize < session.buffer.count + atom.length
  · rw [if_pos full, if_pos full]
    refine (follows_handOn session .csv).onward fun next _ => ?_
    exact ⟨(List.append_nil _).symm, rfl, fun _ => rfl, fun faulty => absurd rfl faulty⟩
  · rw [if_neg full, if_neg full]
    exact ⟨(List.append_nil _).symm, rfl, fun _ => rfl, fun faulty => absurd rfl faulty⟩

theorem follows_putAll (session : Session) (atoms : List Atom) :
    Follows sink held session.taken (session.putAll sink held atoms)
      (sink.run (held + session.taken.length) (session.buffer.addAll atoms).2)
      (session.buffer.addAll atoms).1 := by
  induction atoms generalizing session with
  | nil => exact follows_nil session
  | cons atom rest ih =>
    simp only [putAll, Buffer.addAll]
    refine (follows_put session atom).onward fun next left => ?_
    have later := ih next
    rwa [left] at later

theorem follows_obeyAll (session : Session) (commands : List Command) :
    Follows sink held session.taken (session.obeyAll sink held (commands ++ [.flush]))
      (sink.run (held + session.taken.length) (stepsFrom session.buffer (commands ++ [.flush])))
      {} := by
  induction commands generalizing session with
  | nil =>
    exact (follows_handOn session .plain).onward fun next left => left ▸ follows_nil next
  | cons command rest ih =>
    rw [List.cons_append]
    cases command with
    | record fields =>
      rw [obeyAll, stepsFrom]
      refine (follows_putAll session _).onward fun next left => ?_
      have later := ih next
      rwa [left] at later
    | flush =>
      rw [obeyAll, stepsFrom, ← List.singleton_append]
      refine (follows_handOn session .plain).onward fun next left => ?_
      have later := ih next
      rwa [left] at later

/-- What a sink takes from a writer is what it takes of the writer's plan, though the writer offers
the buffer that was refused once more. -/
theorem write_eq (sink : Sink) (held : Nat) (commands : List Command) :
    write sink held (commands ++ [.flush]) = sink.run held (steps (commands ++ [.flush])) := by
  have follows : Follows sink held [] (({} : Session).obeyAll sink held (commands ++ [.flush]))
      (sink.run held (stepsFrom {} (commands ++ [.flush]))) {} := follows_obeyAll {} commands
  obtain ⟨taken, faults, left, refused⟩ := follows
  unfold write steps
  cases outcome : ({} : Session).obeyAll sink held (commands ++ [.flush]) with
  | mk session fault =>
    rw [outcome] at taken faults left refused
    simp only at taken faults left refused
    have nothing : (session.handOn sink held .plain).1.taken = session.taken := by
      unfold handOn
      cases fault with
      | none =>
        rw [left rfl]
        split
        · exact List.append_nil _
        · rfl
      | some fault => rw [refused nofun, if_neg Bool.false_ne_true]
    exact Prod.ext (nothing.trans taken) faults

end LogCensus.Csv.Session
