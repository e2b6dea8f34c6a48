import Samo.Session
import Samo.Text.Blank
import Samo.Text.Braces

/-!
# The interactive checker

Lines make up entries: an entry goes on as long as braces are open. An entry is a command, if it
starts with a colon, or goes to the session, and then also into the history.
-/

namespace Samo

/-- What is shown, on the two channels. -/
structure Shown where
  out : String := ""
  err : String := ""
deriving DecidableEq, Repr

namespace Shown

def append (a b : Shown) : Shown := ⟨a.out ++ b.out, a.err ++ b.err⟩

instance : Append Shown := ⟨append⟩

end Shown

/-! ## History -/

/-- The entries of earlier times, the latest last. -/
abbrev History := List Bytes

namespace History

/-- How many entries are kept. -/
def limit : Nat := 1000

/-- The latest entries, as many as are kept. -/
def trim (h : History) : History := h.drop (h.length - limit)

/-- One more entry, unless the latest one is the same. -/
def remember (h : History) (entry : Bytes) : History :=
  if h.getLast? = some entry then h else trim (h ++ [entry])

/-- The history in a file. It ends before a line that is too long or no text. -/
def ofBytes (bs : Bytes) : History :=
  let readable (p : Text.Piece) : Bool := !p.goesOn && Text.encode (Text.ofBytes p.bytes) == p.bytes
  trim (((Text.lines bs).takeWhile readable).map (·.bytes))

/-- The history as a file: one line for each entry. -/
def bytes (h : History) : Bytes := h.flatMap (· ++ [Text.lineFeed])

end History

/-! ## Lines -/

/-- The session, the entry that is not finished yet, and the history. -/
structure Repl where
  session : Session
  pending : Bytes := []
  history : History := []
deriving DecidableEq, Repr

def version : String := "0.1.0"

namespace Repl

/-- What is shown first. -/
def banner : String :=
  s!"samoc {version} interactive checker. Commands: :symbols :reset :quit\n"

/-- What is shown before a line is read. -/
def prompt (r : Repl) : String := if r.pending.isEmpty then "samo> " else "  ... "

/-- Shows what was logged. -/
def flushLog (r : Repl) : Shown × Repl :=
  let (text, log) := r.session.log.take
  (⟨"", text⟩, { r with session := { r.session with log } })

/-- An interactive checker with a history. -/
def create (o : Options) (history : History) : Repl := { session := .create o, history }

/-- Takes an entry: what is shown, and whether this was the last one. -/
def enter (r : Repl) (entry : Bytes) : Bool × Shown × Repl :=
  match Text.trim (Text.decode entry) with
  | [] => (false, {}, r)
  | ':' :: cs =>
    let (ends, out, session) := r.session.command (':' :: cs)
    (ends, ⟨out, ""⟩, { r with session })
  | _ =>
    let item := entry.map fun b => if b = Text.lineFeed then ' '.toUInt8 else b
    let (_, err, session) := r.session.eval entry
    let (logged, r) := flushLog { r with session, history := r.history.remember item }
    (false, logged ++ ⟨"", err⟩, r)

/-- Takes a line: what is shown, and whether this was the last one. -/
def feed (r : Repl) (line : Bytes) : Bool × Shown × Repl :=
  let entry := if r.pending.isEmpty then line else r.pending ++ [Text.lineFeed] ++ line
  if 0 < Text.openBraces entry then (false, {}, { r with pending := entry })
  else enter { r with pending := [] } entry

/-- Takes lines until the last one or the end. The end of the lines is shown as an empty line. -/
def feedAll (r : Repl) : List Bytes → Shown × Repl
  | [] => (⟨r.prompt ++ "\n", ""⟩, r)
  | line :: rest =>
    match r.feed line with
    | (true, shown, r') => (⟨r.prompt, ""⟩ ++ shown, r')
    | (false, shown, r') =>
      let (later, last) := r'.feedAll rest
      (⟨r.prompt, ""⟩ ++ shown ++ later, last)

/-- A whole run: what is shown, and the history after it. -/
def run (o : Options) (history : History) (input : Bytes) : Shown × History :=
  let (logged, r) := (create o history).flushLog
  let (shown, r) := r.feedAll ((Text.lines input).map (·.bytes))
  (⟨banner, ""⟩ ++ logged ++ shown, r.history)

end Repl

end Samo
