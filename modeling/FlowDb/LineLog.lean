import Mathlib.Data.List.Basic
import Mathlib.Data.List.Induction

/-! Logs that keep one text a line and skip the lines they cannot read. An append
writes behind whatever is there, so a torn last line and the next text share a line;
a text in brackets that follows the beginning of another one never closes. -/
namespace LineLog
variable {α : Type}

abbrev Text := List Char

/-- Unicode's White_Space. -/
def isSpace (c : Char) : Bool :=
  let n := c.toNat
  (9 ≤ n && n ≤ 13) || n == 0x20 || n == 0x85 || n == 0xA0 || n == 0x1680 || (0x2000 ≤ n && n ≤ 0x200A) ||
    n == 0x2028 || n == 0x2029 || n == 0x202F || n == 0x205F || n == 0x3000

def trim (t : Text) : Text := ((t.dropWhile isSpace).reverse.dropWhile isSpace).reverse

-- A carriage return before the line feed belongs to the line's end.
def chomp (line : Text) : Text := if line.getLast? = some '\r' then line.dropLast else line

def linesFrom (current : Text) : Text → List Text
  | [] => if current = [] then [] else [current]
  | c :: rest => if c = '\n' then chomp current :: linesFrom [] rest else linesFrom (current ++ [c]) rest

/-- The lines of a text; a line feed at its end begins no further line. -/
def lines (content : Text) : List Text := linesFrom [] content

def readLine (parse : Text → Option α) (line : Text) : Option α := if trim line = [] then none else parse (trim line)

/-- What a log holds: the lines that can be read, in their order. -/
def readLog (parse : Text → Option α) (content : Text) : List α := (lines content).filterMap (readLine parse)

/-- The bytes of an append. -/
def appended (t : Text) : Text := t ++ ['\n']

/-! ### Whole lines -/

/-- Printable, neither a blank nor a backslash. -/
def Plain (t : Text) : Prop := ∀ c ∈ t, 33 ≤ c.toNat ∧ c.toNat ≤ 126 ∧ c ≠ '\\'

theorem Plain.append {a b : Text} (left : Plain a) (right : Plain b) : Plain (a ++ b) := by
  intro c member
  rcases List.mem_append.mp member with first | second
  · exact left c first
  · exact right c second

theorem Plain.isPrefix {a b : Text} (plain : Plain b) (front : a <+: b) : Plain a := fun c member =>
  plain c (front.subset member)

theorem isSpace_of_plain {c : Char} (low : 33 ≤ c.toNat) (high : c.toNat ≤ 126) : isSpace c = false := by
  simp only [isSpace, Bool.or_eq_false_iff, Bool.and_eq_false_iff, decide_eq_false_iff_not, beq_eq_false_iff_ne]
  omega

theorem dropWhile_plain {t : Text} (plain : Plain t) : t.dropWhile isSpace = t := by
  cases t with
  | nil => rfl
  | cons c rest =>
    have first := plain c List.mem_cons_self
    rw [List.dropWhile_cons_of_neg]
    simp [isSpace_of_plain first.1 first.2.1]

theorem trim_plain {t : Text} (plain : Plain t) : trim t = t := by
  have backwards : Plain t.reverse := fun c member => plain c (List.mem_reverse.mp member)
  rw [trim, dropWhile_plain plain, dropWhile_plain backwards, List.reverse_reverse]

theorem chomp_plain {t : Text} (plain : Plain t) : chomp t = t := by
  have kept : t.getLast? ≠ some '\r' := fun last => by
    have low := (plain '\r' (List.mem_of_getLast? last)).1
    exact absurd low (by decide)
  rw [chomp, if_neg kept]

theorem newline_notMem {t : Text} (plain : Plain t) : '\n' ∉ t := fun member =>
  absurd (plain '\n' member).1 (by decide)

theorem linesFrom_append (current t rest : Text) (oneLine : '\n' ∉ t) :
    linesFrom current (t ++ '\n' :: rest) = chomp (current ++ t) :: linesFrom [] rest := by
  induction t generalizing current with
  | nil => simp [linesFrom]
  | cons c t ih =>
    have other : c ≠ '\n' := fun same => oneLine (same ▸ List.mem_cons_self)
    rw [List.cons_append, linesFrom, if_neg other, ih _ fun later => oneLine (List.mem_cons_of_mem c later),
      List.append_assoc, List.singleton_append]

theorem readLog_line (parse : Text → Option α) {t : Text} (plain : Plain t) (written : t ≠ []) (rest : Text) :
    readLog parse (appended t ++ rest) = (parse t).toList ++ readLog parse rest := by
  have shape : appended t ++ rest = t ++ '\n' :: rest := by simp [appended]
  rw [shape, readLog, lines, linesFrom_append [] t rest (newline_notMem plain), List.nil_append, chomp_plain plain,
    List.filterMap_cons, readLine, trim_plain plain, if_neg written]
  cases parse t <;> rfl

/-- Whole lines are read one by one, whatever follows. -/
theorem readLog_lines (parse : Text → Option α) (texts : List Text) (plain : ∀ t ∈ texts, Plain t)
    (written : ∀ t ∈ texts, t ≠ []) (rest : Text) :
    readLog parse (texts.flatMap appended ++ rest) = texts.filterMap parse ++ readLog parse rest := by
  induction texts with
  | nil => rfl
  | cons t texts ih =>
    have later := ih (fun u member => plain u (List.mem_cons_of_mem t member))
      fun u member => written u (List.mem_cons_of_mem t member)
    rw [List.flatMap_cons, List.append_assoc, readLog_line parse (plain t List.mem_cons_self)
      (written t List.mem_cons_self), later, List.filterMap_cons]
    cases parse t <;> rfl

/-! ### Texts in brackets -/

inductive Scan where
  | before
  | inside (depth : Nat) (inString escaped : Bool)
  | after
  deriving DecidableEq, Repr

def isBlank (c : Char) : Bool := c == ' ' || c == '\t' || c == '\n' || c == '\r'
def isOpening (c : Char) : Bool := c == '{' || c == '['
def isClosing (c : Char) : Bool := c == '}' || c == ']'

/-- Reads a text for its brackets and strings; `none` where no JSON value can go on. -/
def scanStep : Scan → Char → Option Scan
  | .before, c =>
      if isBlank c then some .before else if isOpening c then some (.inside 0 false false) else none
  | .inside depth true true, _ => some (.inside depth true false)
  | .inside depth true false, c =>
      if c = '\\' then some (.inside depth true true)
      else if c = '"' then some (.inside depth false false)
      else some (.inside depth true false)
  | .inside depth false _, c =>
      if c = '"' then some (.inside depth true false)
      else if isOpening c then some (.inside (depth + 1) false false)
      else if isClosing c then
        match depth with
        | 0 => some .after
        | depth + 1 => some (.inside depth false false)
      else some (.inside depth false false)
  | .after, c => if isBlank c then some .after else none

def scan (s : Scan) (t : Text) : Option Scan := t.foldlM scanStep s

/-- One array or object, with blanks around it at most. -/
def Bracketed (t : Text) : Prop := scan .before t = some .after

instance (t : Text) : Decidable (Bracketed t) := inferInstanceAs (Decidable (_ = _))

theorem scan_append (s : Scan) (a b : Text) : scan s (a ++ b) = (scan s a).bind fun middle => scan middle b := by
  simp only [scan, List.foldlM_append]
  rfl

theorem scan_cons (s : Scan) (c : Char) (t : Text) : scan s (c :: t) = (scanStep s c).bind fun next => scan next t := rfl

def Scan.inString : Scan → Bool
  | .inside _ inString _ => inString
  | _ => false

def Scan.escaped : Scan → Bool
  | .inside _ _ escaped => escaped
  | _ => false

/-- Without backslashes every quote opens or closes a string. -/
theorem scanStep_parity {s next : Scan} {c : Char} (plain : c ≠ '\\') (unescaped : s.escaped = false)
    (stepped : scanStep s c = some next) :
    next.escaped = false ∧ next.inString = (s.inString ^^ (c == '"')) := by
  have quote : isBlank '"' = false ∧ isOpening '"' = false := by decide
  cases s with
  | before =>
    by_cases same : c = '"'
    · simp [same, scanStep, quote] at stepped
    · simp only [scanStep] at stepped
      split_ifs at stepped <;> obtain rfl := Option.some.inj stepped <;> simp [Scan.escaped, Scan.inString, same]
  | after =>
    by_cases same : c = '"'
    · simp [same, scanStep, quote] at stepped
    · simp only [scanStep] at stepped
      split_ifs at stepped
      obtain rfl := Option.some.inj stepped
      simp [Scan.escaped, Scan.inString, same]
  | inside depth inString escaped =>
    obtain rfl : escaped = false := unescaped
    cases inString with
    | true =>
      simp only [scanStep, if_neg plain] at stepped
      split_ifs at stepped with same <;> obtain rfl := Option.some.inj stepped <;>
        simp [Scan.escaped, Scan.inString, same]
    | false =>
      simp only [scanStep] at stepped
      split_ifs at stepped with same
      · obtain rfl := Option.some.inj stepped
        simp [Scan.escaped, Scan.inString, same]
      · obtain rfl := Option.some.inj stepped
        simp [Scan.escaped, Scan.inString, same]
      · cases depth <;> obtain rfl := Option.some.inj stepped <;> simp [Scan.escaped, Scan.inString, same]
      · obtain rfl := Option.some.inj stepped
        simp [Scan.escaped, Scan.inString, same]

/-- Whether an odd number of quotes stands in a text. -/
def oddQuotes (t : Text) : Bool := t.foldl (fun odd c => odd ^^ (c == '"')) false

theorem scan_parity {s last : Scan} {t : Text} (plain : ∀ c ∈ t, c ≠ '\\') (unescaped : s.escaped = false)
    (scanned : scan s t = some last) : last.escaped = false ∧ last.inString = (s.inString ^^ oddQuotes t) := by
  induction t using List.reverseRecOn generalizing last with
  | nil =>
    obtain rfl : s = last := Option.some.inj scanned
    exact ⟨unescaped, by simp [oddQuotes]⟩
  | append_singleton t c ih =>
    rw [scan_append] at scanned
    obtain ⟨middle, first, final⟩ := Option.bind_eq_some_iff.mp scanned
    obtain ⟨calm, parity⟩ := ih (fun d member => plain d (List.mem_append_left [c] member)) first
    have step : scanStep middle c = some last := by simpa [scan] using final
    obtain ⟨still, flipped⟩ := scanStep_parity (plain c (by simp)) calm step
    refine ⟨still, ?_⟩
    rw [flipped, parity, oddQuotes, oddQuotes, List.foldl_append, List.foldl_cons, List.foldl_nil, Bool.xor_assoc]

/-- The same scan with `depth + 1` brackets more around it. -/
def Scan.within (depth : Nat) : Scan → Scan
  | .before => .inside depth false false
  | .inside inner inString escaped => .inside (depth + inner + 1) inString escaped
  | .after => .inside depth false false

theorem blank_inside {c : Char} (blank : isBlank c = true) :
    c ≠ '"' ∧ isOpening c = false ∧ isClosing c = false := by
  simp only [isBlank, Bool.or_eq_true, beq_iff_eq] at blank
  rcases blank with ((rfl | rfl) | rfl) | rfl <;> decide

theorem opening_inside {c : Char} (opening : isOpening c = true) : c ≠ '"' := by
  rintro rfl
  exact absurd opening (by decide)

theorem scanStep_within {s next : Scan} {c : Char} (depth : Nat) (stepped : scanStep s c = some next) :
    scanStep (s.within depth) c = some (next.within depth) := by
  cases s with
  | before =>
    simp only [scanStep] at stepped
    split_ifs at stepped with blank opening <;> obtain rfl := Option.some.inj stepped
    · simp [Scan.within, scanStep, blank_inside blank]
    · simp [Scan.within, scanStep, opening, opening_inside opening]
  | after =>
    simp only [scanStep] at stepped
    split_ifs at stepped with blank
    obtain rfl := Option.some.inj stepped
    simp [Scan.within, scanStep, blank_inside blank]
  | inside inner inString escaped =>
    cases inString with
    | true =>
      cases escaped with
      | true =>
        obtain rfl := Option.some.inj stepped
        rfl
      | false =>
        simp only [scanStep] at stepped
        split_ifs at stepped with slash quote <;> obtain rfl := Option.some.inj stepped <;>
          simp [Scan.within, scanStep, *]
    | false =>
      simp only [scanStep] at stepped
      split_ifs at stepped with quote opening closing
      · obtain rfl := Option.some.inj stepped
        simp [Scan.within, scanStep, quote]
      · obtain rfl := Option.some.inj stepped
        simp [Scan.within, scanStep, quote, opening, Nat.add_right_comm]
        omega
      · cases inner <;> obtain rfl := Option.some.inj stepped <;>
          simp [Scan.within, scanStep, quote, opening, closing, Nat.add_assoc]
      · obtain rfl := Option.some.inj stepped
        simp [Scan.within, scanStep, quote, opening, closing]

theorem scan_within {s last : Scan} {t : Text} (depth : Nat) (scanned : scan s t = some last) :
    scan (s.within depth) t = some (last.within depth) := by
  induction t generalizing s with
  | nil =>
    obtain rfl : s = last := Option.some.inj scanned
    rfl
  | cons c t ih =>
    rw [scan_cons] at scanned ⊢
    obtain ⟨next, stepped, rest⟩ := Option.bind_eq_some_iff.mp scanned
    rw [scanStep_within depth stepped, Option.bind_some]
    exact ih rest

theorem scan_after_blank {t : Text} {last : Scan} (scanned : scan .after t = some last) : ∀ c ∈ t, isBlank c = true := by
  induction t with
  | nil => intro c member; cases member
  | cons c t ih =>
    rw [scan_cons, scanStep] at scanned
    split_ifs at scanned with blank
    · intro d member
      rcases List.mem_cons.mp member with rfl | later
      · exact blank
      · exact ih scanned d later
    · cases scanned

theorem scanStep_to_before {s : Scan} {c : Char} (stepped : scanStep s c = some .before) :
    s = .before ∧ isBlank c = true := by
  fun_cases scanStep s c <;> simp_all [scanStep]

theorem scan_before_blank {t : Text} (scanned : scan .before t = some .before) : ∀ c ∈ t, isBlank c = true := by
  induction t using List.reverseRecOn with
  | nil => intro c member; cases member
  | append_singleton t c ih =>
    rw [scan_append] at scanned
    obtain ⟨middle, first, final⟩ := Option.bind_eq_some_iff.mp scanned
    have step : scanStep middle c = some .before := by simpa [scan] using final
    obtain ⟨rfl, blank⟩ := scanStep_to_before step
    intro d member
    rcases List.mem_append.mp member with earlier | only
    · exact ih first d earlier
    · rwa [List.mem_singleton.mp only]

theorem blank_of_plain {t : Text} (plain : Plain t) : ∀ c ∈ t, isBlank c = false := by
  intro c member
  rw [Bool.eq_false_iff]
  intro blank
  have low := (plain c member).1
  simp only [isBlank, Bool.or_eq_true, beq_iff_eq] at blank
  rcases blank with ((rfl | rfl) | rfl) | rfl <;> exact absurd low (by decide)

/-- The beginning of one text with a whole one behind it is never one value: the brackets or the string that it
leaves open stay open, and behind its end nothing may follow. -/
theorem torn_not_bracketed {torn first second : Text} (plain : Plain first) (follows : Plain second)
    (whole : Bracketed first) (closed : Bracketed second) (front : torn <+: first) (something : torn ≠ []) :
    ¬ Bracketed (torn ++ second) := by
  intro glued
  obtain ⟨rest, rfl⟩ := front
  have tornPlain : Plain torn := plain.isPrefix (List.prefix_append torn rest)
  rw [Bracketed, scan_append] at whole glued
  obtain ⟨middle, reached, -⟩ := Option.bind_eq_some_iff.mp whole
  rw [reached, Option.bind_some] at glued
  have noSlash : ∀ c ∈ second, c ≠ '\\' := fun c member => (follows c member).2.2
  have even : oddQuotes second = false := by
    simpa [Scan.inString] using ((scan_parity noSlash rfl closed).2).symm
  cases middle with
  | before =>
    obtain ⟨c, t, rfl⟩ := List.exists_cons_of_ne_nil something
    have blank := scan_before_blank reached c List.mem_cons_self
    rw [blank_of_plain tornPlain c List.mem_cons_self] at blank
    cases blank
  | after =>
    cases second with
    | nil => cases closed
    | cons c t =>
      have blank := scan_after_blank glued c List.mem_cons_self
      rw [blank_of_plain follows c List.mem_cons_self] at blank
      cases blank
  | inside depth inString escaped =>
    have calm := scan_parity (s := .before) (fun c member => (tornPlain c member).2.2) rfl reached
    obtain rfl : escaped = false := calm.1
    cases inString with
    | true =>
      have flipped := (scan_parity noSlash rfl glued).2
      simp [Scan.inString, even] at flipped
    | false =>
      have inner := scan_within depth closed
      rw [Scan.within, glued] at inner
      cases inner

/-! ### Logs of values -/

/-- A writer and a reader of values as texts. What is written reads back, fits on a line and holds no blanks; what
is read is one array or object. -/
structure Codec (α : Type) where
  toText : α → Text
  fromText : Text → Option α
  round_trip : ∀ value, fromText (toText value) = some value
  plain : ∀ value, Plain (toText value)
  bracketed : ∀ t value, fromText t = some value → Bracketed t

namespace Codec
variable (codec : Codec α)

def line (value : α) : Text := appended (codec.toText value)

def written (values : List α) : Text := values.flatMap codec.line

theorem closed (value : α) : Bracketed (codec.toText value) := codec.bracketed _ value (codec.round_trip value)

theorem toText_ne_nil (value : α) : codec.toText value ≠ [] := by
  intro empty
  have closed := codec.closed value
  rw [empty] at closed
  cases closed

theorem readLog_written (values : List α) (rest : Text) :
    readLog codec.fromText (codec.written values ++ rest) = values ++ readLog codec.fromText rest := by
  have texts : codec.written values = (values.map codec.toText).flatMap appended := by
    rw [written, List.flatMap_map]
    rfl
  rw [texts, readLog_lines codec.fromText (values.map codec.toText) ?_ ?_ rest, List.filterMap_map]
  · have readable : codec.fromText ∘ codec.toText = some := funext codec.round_trip
    rw [readable, List.filterMap_some]
  · intro t member
    obtain ⟨value, -, rfl⟩ := List.mem_map.mp member
    exact codec.plain value
  · intro t member
    obtain ⟨value, -, rfl⟩ := List.mem_map.mp member
    exact codec.toText_ne_nil value

theorem readLog_whole (values : List α) : readLog codec.fromText (codec.written values) = values := by
  have read := codec.readLog_written values []
  have nothing : readLog codec.fromText [] = [] := rfl
  rwa [List.append_nil, nothing, List.append_nil] at read

/-- Behind a torn line the next value shares its line and neither is read; behind none it is. -/
theorem readLog_torn (values : List α) (last next : α) (cut : Nat) (torn : cut ≤ (codec.toText last).length) :
    readLog codec.fromText (codec.written values ++ ((codec.line last).take cut ++ codec.line next)) =
      values ++ if cut = 0 then [next] else [] := by
  rw [codec.readLog_written, List.append_right_inj, line, appended, List.take_append_of_le_length torn]
  have glued : (codec.toText last).take cut ++ codec.line next =
      appended ((codec.toText last).take cut ++ codec.toText next) ++ [] := by
    simp [line, appended]
  have plain : Plain ((codec.toText last).take cut ++ codec.toText next) :=
    ((codec.plain last).isPrefix (List.take_prefix _ _)).append (codec.plain next)
  have nonempty : (codec.toText last).take cut ++ codec.toText next ≠ [] := by
    simp [codec.toText_ne_nil next]
  have nothing : readLog codec.fromText [] = [] := rfl
  rw [glued, readLog_line _ plain nonempty, nothing, List.append_nil]
  split_ifs with whole
  · subst whole
    rw [List.take_zero, List.nil_append, codec.round_trip]
    rfl
  · have something : (codec.toText last).take cut ≠ [] := by
      simp [whole, codec.toText_ne_nil last]
    have unread : codec.fromText ((codec.toText last).take cut ++ codec.toText next) = none := by
      by_contra read
      obtain ⟨value, found⟩ := Option.ne_none_iff_exists'.mp read
      exact torn_not_bracketed (codec.plain last) (codec.plain next) (codec.closed last) (codec.closed next)
        (List.take_prefix _ _) something (codec.bracketed _ value found)
    rw [unread]
    rfl

end Codec

end LineLog
