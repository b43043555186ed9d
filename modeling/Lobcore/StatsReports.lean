import Lobcore.FigureTexts
import Lobcore.ReadmeChecks

/-!
The statistics as a block of a README (`stats.rs`). A report has two tables in front of the rows
of the locates; the rows with timings are left out of what is written into a README. The floating
point figures are taken as they come, all others are printed in full.
-/
namespace Lobcore.StatsReports

open Payloads SessionStats Sessions ReadmeBlocks TypeHours FigureTexts

/-! Bytes as text. -/

/-- What may follow the first byte of a character; `none` where no character begins. -/
def continuations (b : UInt8) : Option (List (UInt8 × UInt8)) :=
  if b < 0x80 then some []
  else if 0xC2 ≤ b ∧ b ≤ 0xDF then some [(0x80, 0xBF)]
  else if b = 0xE0 then some [(0xA0, 0xBF), (0x80, 0xBF)]
  else if b = 0xED then some [(0x80, 0x9F), (0x80, 0xBF)]
  else if 0xE1 ≤ b ∧ b ≤ 0xEF then some [(0x80, 0xBF), (0x80, 0xBF)]
  else if b = 0xF0 then some [(0x90, 0xBF), (0x80, 0xBF), (0x80, 0xBF)]
  else if 0xF1 ≤ b ∧ b ≤ 0xF3 then some [(0x80, 0xBF), (0x80, 0xBF), (0x80, 0xBF)]
  else if b = 0xF4 then some [(0x80, 0x8F), (0x80, 0xBF), (0x80, 0xBF)]
  else none

/-- How many bytes are what may follow. -/
def matched : List (UInt8 × UInt8) → Bytes → ℕ
  | r :: rs, b :: bs => if r.1 ≤ b ∧ b ≤ r.2 then matched rs bs + 1 else 0
  | _, _ => 0

/-- The character of a first byte and the bytes that follow it. -/
def scalar (b : UInt8) (rest : Bytes) : Char :=
  let lead := match rest.length with
    | 0 => b.toNat
    | 1 => b.toNat % 32
    | 2 => b.toNat % 16
    | _ => b.toNat % 8
  Char.ofNat (rest.foldl (fun n c => n * 64 + c.toNat % 64) lead)

def replacement : Char := Char.ofNat 0xFFFD

def lossyFrom : ℕ → Bytes → Text
  | fuel + 1, b :: bs =>
    match continuations b with
    | none => replacement :: lossyFrom fuel bs
    | some rs =>
      let n := matched rs bs
      (if n = rs.length then scalar b (bs.take n) else replacement) :: lossyFrom fuel (bs.drop n)
  | _, _ => []

/-- `String::from_utf8_lossy`: one replacement character for the longest part of a character that
is not complete. -/
def fromUtf8Lossy (bs : Bytes) : Text := lossyFrom bs.length bs

/-- A symbol without its padding. -/
def sym (symbol : Bytes) : Text := trimEnd (fromUtf8Lossy symbol)

/-- Texts with a separator between them. -/
def join (sep : Text) (parts : List Text) : Text := (parts.intersperse sep).flatten

/-- One line for the statistics block. -/
def describe (w : Watchlist) : Text :=
  if w.all then "all locates".toList
  else
    let parts := w.symbols.map sym ++ w.locates.map fun l => '#' :: Nat.toDigits 10 l.toNat
    if parts = [] then "none".toList else join [' '] parts

/-! The report. -/

structure Timing where
  wallNs : ℕ
  ioNs : ℕ
  deriving DecidableEq, Repr

/-- The statistics with what only a report reads. -/
structure Report where
  stats : Stats
  watchlist : Text
  timing : Option Timing

/-- The texts of the floating-point figures: a percentage and a fraction of two counts, millions of
messages a second, and milliseconds. -/
structure FloatTexts where
  percent : ℕ → ℕ → Text
  fraction : ℕ → ℕ → Text
  rate : ℕ → ℕ → Text
  millis : ℕ → Text

section Figures

variable (st : Stats)

/-- Locates with a book, in order. -/
def locatesWithBook : List (ℕ × LocateStats) :=
  (st.locates.zipIdx.filter fun p => p.1.hasBook).map fun p => (p.2 % 2 ^ 16, p.1)

/-- The watched locates with a book, or all with a book when there are at most 16. -/
def listedLocates : List ℕ :=
  let watched := ((locatesWithBook st).filter fun p => p.2.watched).map Prod.fst
  if watched ≠ [] then watched
  else
    let all := (locatesWithBook st).map Prod.fst
    if all.length ≤ 16 then all else []

def negativeQty : ℕ := st.overExecute + st.overCancel

def adds : ℕ := count st 65 + count st 70

def typeHistogramLine : Text :=
  join " · ".toList ((typesPresent st).map fun t => typeLabel t ++ ' ' :: commas (count st t))

def systemEvents : Text :=
  let ev := join [' '] (st.sEvents.map fun e => letter e.1 :: '@' :: hms e.2.toNat)
  if ev = [] then "none".toList else ev

end Figures

/-- A signed number. -/
def signed (z : ℤ) : Text :=
  if z < 0 then '-' :: Nat.toDigits 10 z.natAbs else Nat.toDigits 10 z.natAbs

def row (label : String) (value : Text) : Text :=
  "| ".toList ++ label.toList ++ " | ".toList ++ value ++ " |\n".toList

def slash : Text := " / ".toList

section Rows

variable (fl : FloatTexts) (r : Report)

/-- The rows of the first table, timings apart. -/
def summary : List (String × Text) :=
  let st := r.stats
  [("source", ['`'] ++ st.source.toList ++ ['`']),
    ("messages (complete frames)", commas st.messages),
    ("truncated final message", Nat.toDigits 10 st.truncated ++
      if st.sourceCut then " (source cut mid-stream: range-downloaded gzip prefix)".toList else []),
    ("inflated bytes consumed", commas st.bytesIn ++
      if 0 < st.trailingBytes then
        " (".toList ++ commas st.trailingBytes ++
          " bytes after the last gzip member ignored)".toList
      else []),
    ("unknown message types (skipped by length)", commas st.unknownType),
    ("by type", typeHistogramLine st),
    match st.firstTs, st.lastTs with
    | some a, some b =>
      ("time span (ns since midnight)", hms a.toNat ++ " – ".toList ++ hms b.toNat)
    | _, _ => ("time span", "none".toList),
    ("system events", systemEvents st),
    ("locates with a book", commas (locatesWithBook st).length ++ " (".toList ++
      Nat.toDigits 10 ((locatesWithBook st).filter fun p => p.2.array).length ++
      " array, ".toList ++
      Nat.toDigits 10 ((locatesWithBook st).length -
        ((locatesWithBook st).filter fun p => p.2.array).length) ++
      " reference); watchlist: ".toList ++ r.watchlist ++ "; array window ".toList ++
      Nat.toDigits 10 st.arrayWindow ++ " levels/side".toList),
    ("order messages without a prior R", commas st.noDirectory),
    ("adds at placeholder prices (<= $0.01 or >= $199,900)",
      commas st.placeholderAdds ++ " of ".toList ++ commas (adds st) ++ " = ".toList ++
      (if 0 < adds st then fl.percent st.placeholderAdds (adds st) else "0.00".toList) ++
      " %".toList),
    ("live orders: high-water mark / at close", commas st.liveHwm ++ slash ++ commas st.live),
    ("crossed snapshots before Q", commas st.crossedBeforeQ),
    ("crossed snapshots after Q (all / trading-state T)",
      commas st.crossedAfterQ ++ slash ++ commas st.crossedAfterQTrading),
    ("unknown-id", commas st.unknownId),
    ("negative-qty attempts (over-execute + over-cancel)",
      commas (negativeQty st) ++ " (".toList ++ commas st.overExecute ++ " + ".toList ++
      commas st.overCancel ++ ")".toList),
    ("duplicate id / bad qty / bad price / bad side",
      Nat.toDigits 10 st.duplicateId ++ slash ++ Nat.toDigits 10 st.badQty ++ slash ++
      Nat.toDigits 10 st.badPrice ++ slash ++ Nat.toDigits 10 st.badSide),
    ("E/C at level head", commas st.ecAtHead ++ slash ++ commas st.ecTotal ++ " = ".toList ++
      if st.ecTotal = 0 then "n/a".toList else fl.fraction st.ecAtHead st.ecTotal),
    ("event log", if st.eventLogged then
        commas st.eventCount ++ " records, sha256 `".toList ++ hex st.eventLogHash ++ ['`']
      else "not recorded (log_events = false)".toList),
    ("close book-state hash, all locates", ['`'] ++ hex st.allLocatesHash ++ ['`'])]

/-- The rows with messages per second. -/
def timingRows : List (String × Text) :=
  match r.timing with
  | none => []
  | some t =>
    let log := if r.stats.eventLogged then " + event-log sha256" else ""
    [("msgs/s parse+apply" ++ log ++ ", excluding gunzip/read",
        fl.rate r.stats.messages (max (t.wallNs - t.ioNs) 1) ++ " M (parse+apply ".toList ++
        fl.millis (t.wallNs - min t.ioNs t.wallNs) ++ " ms, read ".toList ++ fl.millis t.ioNs ++
        " ms)".toList),
      ("msgs/s parse+apply" ++ log ++ ", including gunzip/read",
        fl.rate r.stats.messages (max t.wallNs 1) ++ " M (wall ".toList ++ fl.millis t.wallNs ++
        " ms)".toList)]

/-- The row of a listed locate. -/
def locateRow (st : Stats) (l : ℕ) : Text :=
  let s := st.locates.getD l .new
  let dash := "–".toList
  let ov := if s.array then commas s.overflowHits else dash
  let mo := if s.array then signed s.maxAbsOffset ++ slash ++ signed s.maxAbsOffsetReal else dash
  let win := if s.array then
      let w := s.window.getD (0, 0, 0)
      signed w.1 ++ ", ".toList ++ Nat.toDigits 10 w.2.1 ++ ", ".toList ++ signed w.2.2
    else dash
  "| ".toList ++ Nat.toDigits 10 l ++ " | ".toList ++ sym s.symbol ++ " | ".toList ++
    (if s.array then "array".toList else "reference".toList) ++ " | ".toList ++ commas s.msgs ++
    " | ".toList ++ commas s.liveHwm ++ slash ++ commas s.live ++ " | ".toList ++
    [if s.hState = 0 then '-' else letter s.hState] ++ " | ".toList ++ ov ++ " | ".toList ++ mo ++
    " | ".toList ++ win ++ " | `".toList ++ hex s.closeHash ++ "` |\n".toList

/-- What stands in place of rows. -/
def noLocates : Text :=
  "Per-locate rows: none (no watchlist and more than 16 locates); ".toList ++
    "the all-locates hash above covers every book.".toList

def locatesHead : Text :=
  "| locate | symbol | book | msgs | live HWM / close | H ".toList ++
    "| overflow hits | max abs offset (all / ex-placeholder) ".toList ++
    "| window (base, levels, tick) | close book-state hash |".toList

def locatesRule : Text := "|---:|---|---|---:|---:|---|---:|---:|---|---|".toList

def renderLocates (st : Stats) : Text :=
  let listed := listedLocates st
  if listed = [] then noLocates ++ ['\n']
  else locatesHead ++ ['\n'] ++ (locatesRule ++ ['\n']) ++ listed.flatMap (locateRow st)

def rows (ps : List (String × Text)) : Text := ps.flatMap fun p => row p.1 p.2

def renderWith (timing : Bool) : Text :=
  beginMark ++ ['\n'] ++ "| replay | value |\n".toList ++ "|---|---|\n".toList ++
    rows (summary fl r) ++ (if timing then rows (timingRows fl r) else []) ++ ['\n'] ++
    renderTypeHour r.stats ++ ['\n'] ++ renderLocates r.stats ++ endMark ++ ['\n']

/-- The block with the rows of messages per second. -/
def render : Text := renderWith fl r true

/-- The block that is written into a README. -/
def renderBlock : Text := renderWith fl r false

end Rows

end Lobcore.StatsReports
