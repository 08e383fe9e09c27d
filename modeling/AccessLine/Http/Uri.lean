import AccessLine.Http.Method

/-!
# Request targets

A URI is a path with an optional query, an authority alone, or both behind a scheme. A fragment is
cut off when the text is read and leaves no trace. Characters beyond ASCII stand for themselves in
paths and queries.
-/
namespace AccessLine.Http

inductive UriError
  | tooLong
  | empty
  | invalidCharacter
  | invalidFormat
  | schemeTooLong
  | invalidAuthority
  | missingSlash
deriving DecidableEq, Repr

def UriError.message : UriError → String
  | .tooLong => "uri too long"
  | .empty => "empty string"
  | .invalidCharacter => "invalid uri character"
  | .invalidFormat => "invalid format"
  | .schemeTooLong => "scheme too long"
  | .invalidAuthority => "invalid authority"
  | .missingSlash => "path does not start with slash"

/-- A path and an optional query, as written. -/
structure Target where
  rawPath : String
  query : Option String := none
deriving DecidableEq, Repr

/-- The text as written, or a slash if nothing was. -/
def Target.text (t : Target) : String :=
  match t.query with
  | some q => t.rawPath ++ "?" ++ q
  | none => if t.rawPath = "" then "/" else t.rawPath

/-- The path, which is a slash if none was written. -/
def Target.path (t : Target) : String :=
  if t.rawPath = "" then "/" else t.rawPath

/-- A URI in one of its three forms. -/
inductive Uri
  | origin (target : Target)
  | authority (host : String)
  | absolute (scheme host : String) (target : Target)
deriving DecidableEq, Repr

namespace Uri

instance : Inhabited Uri := ⟨.origin ⟨"/", none⟩⟩

def target? : Uri → Option Target
  | .origin t => some t
  | .authority _ => none
  | .absolute _ _ t => some t

def scheme? : Uri → Option String
  | .absolute s _ _ => some s
  | _ => none

def host? : Uri → Option String
  | .origin _ => none
  | .authority h => some h
  | .absolute _ h _ => some h

/-- The path. An authority alone has an empty one. -/
def path (u : Uri) : String :=
  match u.target? with
  | some t => t.path
  | none => ""

def query? (u : Uri) : Option String :=
  u.target?.bind (·.query)

/-- A query with the mark that opens it. -/
def queryText : Option String → String
  | some q => "?" ++ q
  | none => ""

/-- The URI written back: an empty path is written as a slash. -/
def text (u : Uri) : String :=
  let front := match u with
    | .origin _ => ""
    | .authority h => h
    | .absolute s h _ => s ++ "://" ++ h
  front ++ u.path ++ queryText u.query?

/-! ### Characters -/

def isPathChar (c : Char) : Bool :=
  isAlphanumeric c || 0x80 ≤ c.toNat ||
    ['!', '\x22', '$', '%', '&', '\x27', '(', ')', '*', '+', ',', '-', '.', '/', ':', ';', '=', '@',
     '[', '\\', ']', '^', '_', '\x7B', '|', '\x7D', '~'].contains c

def isQueryChar (c : Char) : Bool :=
  let n := c.toNat
  n = 0x21 || (0x24 ≤ n && n ≤ 0x3B) || n = 0x3D || (0x3F ≤ n && n ≤ 0x7E) || 0x80 ≤ n

def isSchemeChar (c : Char) : Bool :=
  isAlphanumeric c || ['+', '-', '.', '~'].contains c

/-- The characters of an authority that need no bookkeeping. -/
def isHostChar (c : Char) : Bool :=
  isAlphanumeric c ||
    ['!', '$', '&', '\x27', '(', ')', '*', '+', ',', '-', '.', ';', '=', '_', '~'].contains c

/-- The characters that end an authority. -/
def endsAuthority (c : Char) : Bool :=
  c = '/' || c = '?' || c = '#'

/-! ### Paths and queries -/

/-- A query ends at the fragment. -/
def parseQuery : List Char → Except UriError (List Char)
  | [] => .ok []
  | c :: cs =>
      if c = '#' then .ok []
      else if isQueryChar c then (c :: ·) <$> parseQuery cs
      else .error .invalidCharacter

/-- A path ends at the query or at the fragment. -/
def parsePath : List Char → Except UriError (List Char × Option (List Char))
  | [] => .ok ([], none)
  | c :: cs =>
      if c = '#' then .ok ([], none)
      else if c = '?' then (fun q => ([], some q)) <$> parseQuery cs
      else if isPathChar c then (fun r => (c :: r.1, r.2)) <$> parsePath cs
      else .error .invalidCharacter

def parseTarget (cs : List Char) : Except UriError Target :=
  match cs with
  | [] => .ok ⟨"/", none⟩
  | ['*'] => .ok ⟨"*", none⟩
  | c :: _ =>
      if endsAuthority c then
        (fun r => ⟨String.ofList r.1, r.2.map String.ofList⟩) <$> parsePath cs
      else .error .missingSlash

/-! ### Authorities -/

/-- What the scan of an authority remembers. A user part, which ends at an at sign, is forgotten
with its colons and percent signs, and so are those of a bracketed address. -/
structure AuthorityScan where
  colons : Nat := 0
  opened : Bool := false
  closed : Bool := false
  percent : Bool := false
  lastIsAt : Bool := false
deriving DecidableEq, Repr

/-- A bracketed address holds up to eight colons. -/
def maxColons : Nat := 8

def AuthorityScan.next (s : AuthorityScan) (c : Char) : Except UriError AuthorityScan :=
  let s' := { s with lastIsAt := false }
  if c = ':' then
    if maxColons ≤ s.colons then .error .invalidAuthority
    else .ok { s' with colons := s.colons + 1 }
  else if c = '[' then
    if s.percent || s.opened then .error .invalidAuthority else .ok { s' with opened := true }
  else if c = ']' then
    if !s.opened || s.closed then .error .invalidAuthority
    else .ok { s' with closed := true, colons := 0, percent := false }
  else if c = '@' then .ok { s' with lastIsAt := true, colons := 0, percent := false }
  else if c = '%' then .ok { s' with percent := true }
  else if isHostChar c then .ok s'
  else .error .invalidCharacter

/-- Whether an authority may end here. -/
def AuthorityScan.Complete (s : AuthorityScan) : Prop :=
  s.opened = s.closed ∧ s.colons ≤ 1 ∧ s.lastIsAt = false ∧ s.percent = false

instance (s : AuthorityScan) : Decidable s.Complete :=
  inferInstanceAs (Decidable (_ ∧ _))

/-- The authority at the front of a text, and what follows it. -/
def scanAuthority (s : AuthorityScan) : List Char → Except UriError (List Char × List Char)
  | [] => if s.Complete then .ok ([], []) else .error .invalidAuthority
  | c :: cs =>
      if endsAuthority c then
        if s.Complete then .ok ([], c :: cs) else .error .invalidAuthority
      else
        match s.next c with
        | .error e => .error e
        | .ok s' => (fun r => (c :: r.1, r.2)) <$> scanAuthority s' cs

/-- An authority is not empty, though nothing may stand before what ends it. -/
def splitAuthority (cs : List Char) : Except UriError (List Char × List Char) :=
  if cs = [] then .error .empty else scanAuthority {} cs

/-! ### Whole URIs -/

/-- The text after a literal, compared without regard to letter case. -/
def dropFolded? (literal cs : List Char) : Option (List Char) :=
  if foldCase (cs.take literal.length) = literal then some (cs.drop literal.length) else none

/-- The longest scheme other than the two well-known ones. -/
def maxSchemeLength : Nat := 64

/-- The scheme at the front of a text, and what follows its two slashes. The well-known schemes are
put into lower case. Others are read only from texts of more than three bytes. -/
def splitScheme (cs : List Char) : Except UriError (Option (String × List Char)) :=
  match dropFolded? ['h', 't', 't', 'p', ':', '/', '/'] cs with
  | some rest => .ok (some ("http", rest))
  | none =>
    match dropFolded? ['h', 't', 't', 'p', 's', ':', '/', '/'] cs with
    | some rest => .ok (some ("https", rest))
    | none =>
      let scheme := cs.takeWhile isSchemeChar
      match cs.dropWhile isSchemeChar with
      | ':' :: '/' :: '/' :: rest =>
          if scheme.length + rest.length = 0 then .ok none
          else if maxSchemeLength < scheme.length then .error .schemeTooLong
          else .ok (some (String.ofList scheme, rest))
      | _ => .ok none

/-- The longest URI, in bytes. -/
def maxLength : Nat := 65534

/-- A URI of more than one character that does not start with a slash. -/
def parseFull (cs : List Char) : Except UriError Uri := do
  match ← splitScheme cs with
  | none =>
      let (host, rest) ← splitAuthority cs
      if rest = [] then .ok (.authority (String.ofList host)) else .error .invalidFormat
  | some (scheme, rest) =>
      let (host, rest) ← splitAuthority rest
      if host = [] then .error .invalidFormat
      else
        let target ← parseTarget rest
        .ok (.absolute scheme (String.ofList host) target)

/-- Reads a URI. A single character is a path or an authority. -/
def parse (text : String) : Except UriError Uri :=
  if maxLength < text.utf8ByteSize then .error .tooLong
  else
    match text.toList with
    | [] => .error .empty
    | '/' :: cs => .origin <$> parseTarget ('/' :: cs)
    | ['*'] => .ok (.origin ⟨"*", none⟩)
    | [c] => do
        let (host, rest) ← splitAuthority [c]
        if rest = [] then .ok (.authority (String.ofList host)) else .error .invalidCharacter
    | cs => parseFull cs

end Uri

end AccessLine.Http
