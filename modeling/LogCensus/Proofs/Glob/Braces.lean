import LogCensus.Proofs.Glob.Written

/-!
Which patterns can be read. Without classes and backslashes they are those whose braces belong
together, so that nothing but the braces counts.
-/

namespace LogCensus.Glob

def isBrace (c : Char) : Bool := c == '\x7b' || c == '\x7d'

/-- Whether a text closes so many open braces and those that it opens itself, and no others. -/
def closes : Nat → List Char → Bool
  | depth, [] => depth == 0
  | depth, c :: rest =>
    if c = '\x7b' then closes (depth + 1) rest
    else if c = '\x7d' then
      match depth with
      | 0 => false
      | depth + 1 => closes depth rest
    else closes depth rest

theorem closes_openBrace (depth : Nat) (rest : List Char) :
    closes depth ('\x7b' :: rest) = closes (depth + 1) rest := rfl

theorem closes_closeBrace (depth : Nat) (rest : List Char) :
    closes (depth + 1) ('\x7d' :: rest) = closes depth rest := rfl

theorem closes_cons {c : Char} (other : isBrace c = false) (depth : Nat) (rest : List Char) :
    closes depth (c :: rest) = closes depth rest := by
  simp only [isBrace, Bool.or_eq_false_iff, beq_eq_false_iff_ne] at other
  rw [closes.eq_def]
  exact (if_neg other.1).trans (if_neg other.2)

theorem closes_filter (depth : Nat) (text : List Char) :
    closes depth (text.filter isBrace) = closes depth text := by
  induction text generalizing depth with
  | nil => rfl
  | cons c rest ih =>
    cases brace : isBrace c with
    | false =>
      rw [List.filter_cons_of_neg (Bool.eq_false_iff.1 brace), closes_cons brace, ih]
    | true =>
      rw [List.filter_cons_of_pos brace]
      simp only [isBrace, Bool.or_eq_true, beq_iff_eq] at brace
      rcases brace with rfl | rfl
      · exact ih (depth + 1)
      · cases depth with
        | zero => rfl
        | succ depth => exact ih depth

/-! ### Depth of drafts -/

namespace Draft

variable {draft next : Draft} {read : List Char}

def depth (draft : Draft) : Nat := draft.around.length

theorem depth_pushSpanning? {previous following : Option Char}
    (pushed : draft.pushSpanning? previous following = some next) : next.depth = draft.depth := by
  unfold pushSpanning? at pushed
  simp only at pushed
  split_ifs at pushed <;> cases pushed <;> rfl

theorem depth_comma (draft : Draft) : draft.comma.depth = draft.depth := by
  obtain ⟨here, around⟩ := draft
  cases around <;> rfl

theorem isOk_finish (draft : Draft) : draft.finish.isOk = (draft.depth == 0) := by
  obtain ⟨here, around⟩ := draft
  cases around <;> rfl

theorem depth_closeBrace (closed : draft.closeBrace = .ok next) : draft.depth = next.depth + 1 := by
  obtain ⟨here, around⟩ := draft
  cases around with
  | nil => cases closed
  | cons frame around =>
    cases closed
    rfl

theorem depth_of_unopened {fault : Fault} (closed : draft.closeBrace = .error fault) :
    draft.depth = 0 := by
  obtain ⟨here, around⟩ := draft
  cases around with
  | nil => rfl
  | cons frame around => cases closed

/-- A step goes as deep as the braces do that it reads. -/
theorem Reads.closes_append (reads : draft.Reads read next) (rest : List Char) :
    closes draft.depth (read ++ rest) = closes next.depth rest := by
  have pass (chars : List Char) (free : chars.all (!isBrace ·) = true) (depth : Nat) :
      closes depth (chars ++ rest) = closes depth rest := by
    rw [← closes_filter, List.filter_append, List.filter_eq_nil_iff.2, List.nil_append, closes_filter]
    simpa using free
  cases reads with
  | one => exact pass ['?'] rfl _
  | many => exact pass ['*'] rfl _
  | stars => exact pass ['*', '*'] rfl _
  | starsSlash => exact pass ['*', '*', '/'] rfl _
  | spanning _ _ _ pushed =>
    rw [depth_pushSpanning? pushed]
    exact pass ['*', '*'] rfl _
  | spanningSlash _ _ pushed =>
    rw [depth_pushSpanning? pushed]
    exact pass ['*', '*', '/'] rfl _
  | openBrace => exact closes_openBrace draft.depth rest
  | closeBrace _ closed =>
    rw [depth_closeBrace closed]
    exact closes_closeBrace next.depth rest
  | comma =>
    rw [depth_comma]
    exact pass [','] rfl _
  | literal c opening closing =>
    exact closes_cons (by simp [isBrace, opening, closing]) _ _

end Draft

/-! ### Reading -/

theorem isOk_readFrom : ∀ (previous : Option Char) (draft : Draft) (text : List Char),
    IsPlain text → (readFrom previous draft text).isOk = closes draft.depth text := by
  refine readFrom_plain_induct ?ends ?unopened ?step
  case ends => exact fun _ draft => draft.isOk_finish
  case unopened =>
    intro previous draft rest fault closed failed
    rw [failed, draft.depth_of_unopened closed]
    rfl
  case step =>
    intro previous draft read last next rest reads onward ih
    rw [onward, ih, reads.closes_append]

/-- Of two patterns with the same braces, either both can be read or neither can. -/
theorem isOk_ofText_congr {one other : List Char} (plain : IsPlain one) (also : IsPlain other)
    (same : one.filter isBrace = other.filter isBrace) : (ofText one).isOk = (ofText other).isOk := by
  rw [ofText, ofText, isOk_readFrom none {} one plain, isOk_readFrom none {} other also,
    ← closes_filter, same, closes_filter]

end LogCensus.Glob
