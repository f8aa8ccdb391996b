import SystemProgramming.Lib.Strtol
import SystemProgramming.Lib.CString
import SystemProgramming.Lib.Stdio
import SystemProgramming.Lib.Words

/-! # The listings of `/proc` in `hw3/part1.c` and `hw3/part3.c`

Both programs go through the entries of `/proc` whose names are numbers. The first shows the processes of one
user from their `status` files, the second the targets of the links in their `fd` directories. A run that
overruns a buffer or uses a null pointer has no result. What a file or a directory holds is what the program
finds when it opens it.
-/

namespace SystemProgramming.ProcDir

open Lib

abbrev Uid := BitVec 32

/-- `PATH`. -/
def procPath : Bytes := bytes ['/', 'p', 'r', 'o', 'c', '/']

/-- Whether `strtol` takes the whole string. -/
def isNumeric (str : Bytes) : Bool := (strtol 10 str).rest == []

def genSubdir (path name : Bytes) : Bytes := path ++ name

/-- `memcpy` and `strncat` into an empty array of 256 bytes. -/
def filename (ps suffix : Bytes) : Option Bytes :=
  if (ps ++ suffix).length < 256 then some (ps ++ suffix) else none

/-- A loop over the entries of a directory that passes over the names that are not numbers. -/
def forNumeric (body : Bytes → Option Bytes) : List Bytes → Option Bytes
  | [] => some []
  | name :: names =>
    if isNumeric name then do
      let out ← body name
      let rest ← forNumeric body names
      some (out ++ rest)
    else forNumeric body names

/-! ## The processes of a user -/

/-- -1, or the user's id; the second argument of `strtol` is never a null pointer. -/
def userIdFromName (getpwnam : Bytes → Option Uid) (name : Bytes) : Uid :=
  if name = [] then -1
  else if (strtol 10 name).rest = [] then BitVec.ofInt 32 (strtol 10 name).value
  else (getpwnam name).getD (-1)

/-- SPACE or TAB or NL. -/
def delim (byte : UInt8) : Bool := byte == 32 || byte == 9 || byte == 10

/-- The third word of the line, for `atoi`. -/
def thirdWord (line : Bytes) : Option Bytes :=
  let (_, rest) := nextWord delim (cstr line)
  let (_, rest) := nextWord delim rest
  (nextWord delim rest).1

/-- `"%sUid:\t%d\n"`. -/
def uidLine (buf : Bytes) (uid : Uid) : Bytes :=
  buf ++ bytes ['U', 'i', 'd', ':', '\t'] ++ signedDigits uid.toInt ++ [newline]

/-- The loop of `show_name_id`, when `10 - left` lines have been read. -/
def showLines (user : Uid) : ℕ → Stream → Bytes → Option Bytes
  | 0, _, _ => some []
  | left + 1, stream, buf =>
    let got := getline id stream none
    match got.count, got.line with
    | some _, some line =>
      let counter := 10 - left
      if ¬ counter < 10 then some []
      else if counter = 1 then
        -- the NUL behind the name is one of the array's own
        if (cstr line).length < 256 then showLines user left got.stream (cstr line) else none
      else if counter = 9 then do
        let word ← thirdWord line
        let rest ← showLines user left got.stream buf
        some ((if atoi word = user then uidLine buf (atoi word) else []) ++ rest)
      else showLines user left got.stream buf
    | _, _ => some []

def showNameId (files : Bytes → Option Bytes) (getpwnam : Bytes → Option Uid) (uname ps : Bytes) :
    Option Bytes := do
  let path ← filename ps (bytes ['/', 's', 't', 'a', 't', 'u', 's'])
  -- without the file `getline` gets a null pointer
  let text ← files path
  showLines (userIdFromName getpwnam uname) 10 ⟨text, false⟩ []

/-- What `main` of `part1.c` prints and its exit status, for the entries `readdir` returns. -/
def listUser (files : Bytes → Option Bytes) (getpwnam : Bytes → Option Uid) (dir argv : List Bytes) :
    Option (Bytes × ℕ) :=
  match argv with
  | [_, uname] =>
    (forNumeric (fun name => showNameId files getpwnam uname (genSubdir procPath name)) dir).map (·, 0)
  | _ => some ([], 1)

/-! ## The open files -/

/-- The body of the loop of `show_fd_link`. `readlink` writes no NUL of its own. -/
def showLink (readlink : Bytes → Option Bytes) (filename name : Bytes) : Option Bytes :=
  let fdPath := (filename ++ bytes ['/'] ++ name).take 511
  match readlink fdPath with
  | none => some []
  | some target =>
    if target.length < 256 then some (fdPath ++ bytes [' ', '-', '>', ' '] ++ target ++ [newline]) else none

def showFdLink (opendir : Bytes → Option (List Bytes)) (readlink : Bytes → Option Bytes) (ps : Bytes) :
    Option Bytes := do
  let filename ← filename ps (bytes ['/', 'f', 'd'])
  match opendir filename with
  | none => some []
  | some entries => forNumeric (showLink readlink filename) entries

/-- What `main` of `part3.c` prints. -/
def listFds (opendir : Bytes → Option (List Bytes)) (readlink : Bytes → Option Bytes) (dir : List Bytes) :
    Option Bytes :=
  forNumeric (fun name => showFdLink opendir readlink (genSubdir procPath name)) dir

end SystemProgramming.ProcDir
