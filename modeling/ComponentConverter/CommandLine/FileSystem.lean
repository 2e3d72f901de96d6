import ComponentConverter.Text.Basic

namespace ComponentConverter.CommandLine

def splitSlashes : Text → List Text
  | [] => [[]]
  | c :: t =>
    match splitSlashes t with
    | [] => [[c]]
    | n :: ns => if c = '/' then [] :: n :: ns else (c :: n) :: ns

def pathNames (path : Text) : List Text := (splitSlashes path).filter fun n => !n.isEmpty && n != ['.']

def fileName? (path : Text) : Option Text := (pathNames path).getLast?.filter (· != ['.', '.'])

/-- The name of a file without its extension; a point at the start starts none. -/
def fileStem? (path : Text) : Option Text :=
  (fileName? path).map fun name =>
    match breakOnLast? '.' name with
    | some (stem, _) => if stem.isEmpty then name else stem
    | none => name

inductive FileFault where
  | notFound
  | isDirectory
  | notDirectory
  | notText
  | other (message : String)
  deriving Repr, DecidableEq

def FileFault.message : FileFault → String
  | .notFound => "No such file or directory (os error 2)"
  | .isDirectory => "Is a directory (os error 21)"
  | .notDirectory => "Not a directory (os error 20)"
  | .notText => "stream did not contain valid UTF-8"
  | .other message => message

/-- What a run asks of a file system, in the monad in which that answers. -/
structure FileSystem (m : Type → Type) where
  read (path : Text) : m (Except FileFault Text)
  write (path text : Text) : m (Except FileFault Unit)

inductive Content where
  | text (text : Text)
  | bytes (bytes : List UInt8)
  deriving Repr, DecidableEq

def Content.text? : Content → Option Text
  | .text t => some t
  | .bytes bs => (String.fromUTF8? ⟨bs.toArray⟩).map String.toList

abbrev Place := List Text

/-- A file system without links that holds the working directory and what is below it, and nothing else. -/
structure Storage where
  files : List (Place × Content)
  directories : List Place
  deriving Repr, DecidableEq

namespace Storage

def file? (s : Storage) (p : Place) : Option Content := (s.files.find? (·.1 == p)).map Prod.snd

def isDirectory (s : Storage) (p : Place) : Bool :=
  p.isEmpty || s.directories.any p.isPrefixOf || s.files.any fun f => p.isPrefixOf f.1 && p != f.1

/-- Goes from a directory to one of its own, or up. Above the working directory nothing is
known. -/
def enter (s : Storage) (current : Option Place) (name : Text) : Except FileFault (Option Place) :=
  if name == ['.', '.'] then
    .ok (match current with
      | none | some [] => none
      | some p => some p.dropLast)
  else
    match current with
    | none => .error .notFound
    | some p =>
      let q := p ++ [name]
      if s.isDirectory q then .ok (some q)
      else if (s.file? q).isSome then .error .notDirectory
      else .error .notFound

/-- Where a path leads: to a directory, or to the place of a file. -/
def locate (s : Storage) (path : Text) : Except FileFault (Option Place) :=
  let names := pathNames path
  if path.isEmpty then .error .notFound
  else if path.head? = some '/' then
    if names.all (· == ['.', '.']) then .ok none else .error .notFound
  else
    match names.getLast? with
    | none => .ok none
    | some last => do
      let current ← names.dropLast.foldlM s.enter (some [])
      if last == ['.', '.'] then return none
      match current with
      | none => throw .notFound
      | some p => return if s.isDirectory (p ++ [last]) then none else some (p ++ [last])

def asksDirectory (path : Text) : Bool :=
  match (splitSlashes path).getLast? with
  | some n => n.isEmpty || n == ['.']
  | none => false

def read (s : Storage) (path : Text) : Except FileFault Text := do
  match ← s.locate path with
  | none => throw .isDirectory
  | some p =>
    match s.file? p with
    | none => throw .notFound
    | some content =>
      if asksDirectory path then throw .notDirectory
      match content.text? with
      | some t => return t
      | none => throw .notText

def put (s : Storage) (p : Place) (t : Text) : Storage :=
  { s with files := s.files.filter (·.1 != p) ++ [(p, .text t)] }

def write (s : Storage) (path t : Text) : Except FileFault Storage := do
  match ← s.locate path with
  | none => throw .isDirectory
  | some p =>
    if asksDirectory path then
      throw (if (s.file? p).isSome then .notDirectory else .isDirectory)
    return s.put p t

def fileSystem : FileSystem (StateM Storage) where
  read path := return (← get).read path
  write path text := modifyGet fun s =>
    match s.write path text with
    | .error cause => (.error cause, s)
    | .ok written => (.ok (), written)

end Storage

end ComponentConverter.CommandLine
