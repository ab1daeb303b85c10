import DocExpr.Token.Kind
import DocExpr.Token.Pattern

/-!
# Single-quoted literals

What stands between single quotes is a character, a UUID, a date, a date with a time, or an
internet address. `Literal.forms` gives a pattern for each of them, quotes not included, and
`Literal.classify` the kind of the first pattern that matches.
-/

namespace DocExpr.Literal

open Pattern

/-- Holds of the decimal digits of ASCII. -/
def isDigit (c : Char) : Bool := '0' ≤ c && c ≤ '9'

/-- A decimal digit that is at most `top`. -/
def digitUpTo (top : Char) : Pattern := one fun c => '0' ≤ c && c ≤ top

/-- A decimal digit. -/
def digit : Pattern := one isDigit

/-- A digit of base sixteen, in small or capital letters. -/
def hexDigit : Pattern :=
  one fun c => isDigit c || ('a' ≤ c && c ≤ 'f') || ('A' ≤ c && c ≤ 'F')

/-- One character that is no backslash, or a backslash before one of `t`, `r`, `n`, the single
quote and the backslash. -/
def character : Pattern :=
  either (one (· != '\\')) (seq (char '\\') (oneOf ['t', 'r', 'n', '\x27', '\\']))

/-- Groups of 8, 4, 4, 4 and 12 digits of base sixteen, separated by dashes. -/
def uuid : Pattern :=
  all [times 8 hexDigit, char '-', times 4 hexDigit, char '-', times 4 hexDigit, char '-',
    times 4 hexDigit, char '-', times 12 hexDigit]

/-- A month, a day, an hour, a minute or a second: two digits, of any value. -/
def twoDigits : Pattern := times 2 digit

/-- The sign of a year or of a time zone. -/
def sign : Pattern := oneOf ['+', '-']

/-- Four digits, or a sign with four to ten digits. -/
def year : Pattern := either (times 4 digit) (seq sign (repeated 4 6 digit))

/-- A year, a month and a day, separated by dashes. -/
def date : Pattern := all [year, char '-', twoDigits, char '-', twoDigits]

/-- The letter Z, or a signed offset in hours and perhaps minutes. -/
def timeZone : Pattern :=
  either (oneOf ['z', 'Z']) (all [sign, twoDigits, optional (seq (char ':') twoDigits)])

/-- Seconds with up to six decimals. -/
def seconds : Pattern := seq twoDigits (optional (seq (char '.') (repeated 1 5 digit)))

/-- A date, a time of day and a time zone. -/
def dateTime : Pattern :=
  all [date, char 'T', twoDigits, char ':', twoDigits, optional (seq (char ':') seconds), timeZone]

/-- A decimal number up to 255, of one to three digits. -/
def octet : Pattern :=
  anyOf (all [char '2', char '5', digitUpTo '5'])
    [all [char '2', digitUpTo '4', digit],
      all [optional (oneOf ['0', '1']), digit, optional digit]]

/-- Four octets, separated by dots. -/
def ipv4 : Pattern := seq octet (times 3 (seq (char '.') octet))

/-- A group of an address of version 6: one to four digits of base sixteen. -/
def segment : Pattern := repeated 1 3 hexDigit

/-- A group with the colon behind it. -/
def segmentColon : Pattern := seq segment (char ':')

/-- The last two groups, which may be written as an address of version 4. -/
def lastTwo : Pattern := either (seq segmentColon segment) ipv4

/-- The double colon, which stands for groups of zeros. -/
def gap : Pattern := seq (char ':') (char ':')

/-- Perhaps some groups, up to `most` and one more, with colons between them. -/
def upTo (most : Nat) : Pattern := optional (seq (repeated 0 most segmentColon) segment)

/-- Eight groups, or fewer with one gap. -/
def ipv6 : Pattern :=
  anyOf (seq (times 6 segmentColon) lastTwo)
    [all [gap, times 5 segmentColon, lastTwo],
      all [upTo 0, gap, times 4 segmentColon, lastTwo],
      all [upTo 1, gap, times 3 segmentColon, lastTwo],
      all [upTo 2, gap, times 2 segmentColon, lastTwo],
      all [upTo 3, gap, segmentColon, lastTwo],
      all [upTo 4, gap, lastTwo],
      all [upTo 5, gap, segment],
      all [upTo 6, gap]]

/-- The patterns of the literals, in the order in which they are tried. -/
def forms : List (Kind × Pattern) :=
  [(.atom .char, character), (.atom .uuid, uuid), (.atom .date, date),
    (.atom .dateTime, dateTime), (.address .v4, ipv4), (.address .v6, ipv6)]

/-- A pattern between single quotes. -/
def quoted (p : Pattern) : Pattern := all [char '\x27', p, char '\x27']

/-- The kind of a single-quoted literal, given with its quotes. -/
def classify (text : List Char) : Kind :=
  match forms.find? fun form => (quoted form.2).accepts text with
  | some form => form.1
  | none => .fault .unrecognizedLiteral

end DocExpr.Literal
