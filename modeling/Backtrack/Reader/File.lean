import Backtrack.Reader.Basic

/-!
# Reader/File — reading a file

What a path names decides how opening it goes.  A missing file cannot be opened.  A directory can,
and fails at the first read.  A regular file hands out every chunk in full.  The file is opened
before the configuration is looked at, so a missing file is reported even if the configuration is
at fault too.
-/

namespace Backtrack

/-- What a path names. -/
inductive FileEntry where
  | missing
  | directory
  | regular (content : List UInt8)

namespace FileEntry

/-- The failure to open what does not exist. -/
def notFound : IoError := ⟨⟨"NotFound"⟩, "No such file or directory (os error 2)"⟩

/-- The failure to read from a directory. -/
def isADirectory : IoError := ⟨⟨"IsADirectory"⟩, "Is a directory (os error 21)"⟩

/-- The source behind an opened entry. -/
def source : FileEntry → Except IoError Source
  | missing => .error notFound
  | directory => .ok (.ofBytes [] [.fail isADirectory])
  | regular content => .ok (.ofBytes content [])

end FileEntry

/-- **A reader at the first byte of a file.** -/
def Reader.ofFile (path : String) (entry : FileEntry) (config : ReaderConfig) :
    Except StreamError Reader :=
  match entry.source with
  | .error e => .error (.cannotOpen path e)
  | .ok source =>
    match Reader.ofSource source config with
    | .error (e, _) => .error e
    | .ok r => .ok r

end Backtrack
