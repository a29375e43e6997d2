import LogCensus.Format.Application

/-!
The grammar of the lines that start entries of application logs. A line that has the form of a start
line may have it in several ways, since blanks and a thread name may also be taken for a part of the
message; the greedy form takes as much as it can in front of the message.
-/

namespace LogCensus.Format.Application

open Text (isBlank isNumeral)

/-! ### Parts of a line -/

/-- A number of digits of any script. -/
@[ext] structure Numerals (count : Nat) where
  text : List Char
  length : text.length = count
  all : ∀ c ∈ text, isNumeral c = true

/-- A point or comma and one to nine digits of any script. -/
@[ext] structure Fraction where
  mark : Char
  digits : List Char
  isMark : mark = '.' ∨ mark = ','
  nonempty : digits ≠ []
  few : digits.length ≤ 9
  all : ∀ c ∈ digits, isNumeral c = true

@[ext] structure Blanks where
  text : List Char
  nonempty : text ≠ []
  all : ∀ c ∈ text, isBlank c = true

@[ext] structure Thread where
  name : List Char
  gap : Blanks
  nonempty : name ≠ []
  free : ']' ∉ name

inductive LevelWord where
  | trace
  | debug
  | info
  | notice
  | warn
  | warning
  | error
  | severe
  | fatal
  | critical
  deriving DecidableEq

/-- Date and time of day, `2024-01-01 10:00:00` or with a `T`. -/
@[ext] structure DateTimeForm where
  year : Numerals 4
  month : Numerals 2
  day : Numerals 2
  separator : Char
  isSeparator : separator = ' ' ∨ separator = 'T'
  hour : Numerals 2
  minute : Numerals 2
  second : Numerals 2

@[ext] structure Stamp where
  dateTime : DateTimeForm
  fraction : Option Fraction

@[ext] structure StartForm where
  stamp : Stamp
  gap : Blanks
  opened : Bool
  level : LevelWord
  closed : Bool
  space : Blanks
  thread : Option Thread
  message : List Char
  oneLine : '\n' ∉ message

/-! ### Their texts -/

def Fraction.text (fraction : Fraction) : List Char := fraction.mark :: fraction.digits

def Thread.text (thread : Thread) : List Char := '[' :: (thread.name ++ ']' :: thread.gap.text)

def optional (c : Char) (present : Bool) : List Char := if present then [c] else []

namespace LevelWord

def text : LevelWord → List Char
  | trace => "TRACE".toList
  | debug => "DEBUG".toList
  | info => "INFO".toList
  | notice => "NOTICE".toList
  | warn => "WARN".toList
  | warning => "WARNING".toList
  | error => "ERROR".toList
  | severe => "SEVERE".toList
  | fatal => "FATAL".toList
  | critical => "CRITICAL".toList

def level : LevelWord → Level
  | trace | debug => .debug
  | info | notice => .info
  | warn | warning => .warning
  | error | severe => .error
  | fatal | critical => .fatal

def all : List LevelWord :=
  [trace, debug, info, notice, warn, warning, error, severe, fatal, critical]

theorem mem_all (word : LevelWord) : word ∈ all := by cases word <;> simp [all]

theorem ofSpelling_text (word : LevelWord) : Level.ofSpelling word.text = word.level := by
  cases word <;> decide

theorem level_ne_unknown (word : LevelWord) : word.level ≠ .unknown := by
  cases word <;> simp [level]

end LevelWord

def DateTimeForm.text (form : DateTimeForm) : List Char :=
  form.year.text ++ '-' :: (form.month.text ++ '-' :: (form.day.text ++ form.separator ::
    (form.hour.text ++ ':' :: (form.minute.text ++ ':' :: form.second.text))))

def Stamp.fractionText (stamp : Stamp) : List Char := stamp.fraction.elim [] Fraction.text

def Stamp.text (stamp : Stamp) : List Char := stamp.dateTime.text ++ stamp.fractionText

namespace StartForm

def threadText (form : StartForm) : List Char := form.thread.elim [] Thread.text

def text (form : StartForm) : List Char :=
  form.stamp.text ++ (form.gap.text ++ (optional '[' form.opened ++ (form.level.text ++
    (optional ']' form.closed ++ (form.space.text ++ (form.threadText ++ form.message))))))

/-- The form in which as much as possible stands in front of the message: it begins with no blank,
and with no thread name where none has been taken. -/
structure Greedy (form : StartForm) : Prop where
  solid : ∀ c ∈ form.message.head?, isBlank c = false
  threaded : form.thread = none → ∀ thread : Thread, ¬ thread.text <+: form.message

def startLine (form : StartForm) : StartLine where
  stamp := form.stamp.text
  level := form.level.text
  thread := form.thread.map Thread.name
  message := form.message

end StartForm

end LogCensus.Format.Application
