import CS416.Lib.CString
import CS416.Sfs.State

/-!
# Paths and directory text

The string surgery of `sfs.c`: looking a path up in `name_table`, splitting
it at its last slash, and the text of a directory, which is
`<name>/<inode>/<name>/<inode>/...`.
-/

namespace Sfs

open Search CString

/-- The characters `'/'`, `'.'` and `'%'`. -/
abbrev slash : UInt8 := 47
abbrev dot : UInt8 := 46
abbrev percent : UInt8 := 37

/-- `path_lookup` -/
def pathLookup (s : FS) (path : Path) : Int :=
  (findFrom (fun i => (s.nameTable i).path = path) maxLink.toNat 0).getD (-1)

/-- The loop that leaves the position of the last slash in `pos`; `i` is the
position of the rest of the path. -/
def lastSlashFrom : Nat → Option Nat → Path → Option Nat
  | _, pos, [] => pos
  | i, pos, c :: cs => lastSlashFrom (i + 1) (if c = slash then some i else pos) cs

def lastSlash (path : Path) : Option Nat := lastSlashFrom 0 none path

/-- `get_cwd_path`, into a cleared buffer. -/
def getCwdPath (path : Path) : Path :=
  if path = [slash] then [slash]
  else
    match lastSlash path with
    | none => []
    | some 0 => [slash]
    | some pos => path.take pos

/-- `get_name`, into a cleared buffer. -/
def getName (path : Path) : Path :=
  if path = [slash] then [slash]
  else
    match lastSlash path with
    | none => []
    | some pos => path.drop (pos + 1)

/-- `%i` -/
def showInt (n : Int) : Path :=
  let digits := (Nat.toDigits 10 n.natAbs).map fun c => UInt8.ofNat c.toNat
  if n < 0 then 45 :: digits else digits

/-- A directory entry as `sprintf` assembles it: `"/%s/%i"`. -/
def dirEntry (name : Path) (ino : Int) : Path :=
  slash :: name ++ slash :: showInt ino

/-- The text a new directory starts with: `"./%i/../%i"`. -/
def dirHeader (ino parent : Int) : Path :=
  dot :: slash :: showInt ino ++ slash :: dot :: dot :: slash :: showInt parent

/-- The loop of `removeSubstring`; each round deletes one occurrence and goes
on from where it stood. -/
def removeLoop (toremove : Path) : Nat → Path → Path
  | 0, s => s
  | n + 1, s =>
      match strstr toremove s with
      | none => s
      | some (before, rest) => before ++ removeLoop toremove n (rest.drop toremove.length)

/-- `removeSubstring`.  A round shortens the string by the nonempty
`toremove`, so the length of the string bounds the number of rounds. -/
def removeSubstring (s toremove : Path) : Path := removeLoop toremove s.length s

/-- The bytes of a block followed by those behind the buffer it was read to. -/
def blockBytes (b : Block) : List UInt8 := (List.range 512).map b.byte

/-- A block that holds a text and zeros after it. -/
def textBlock (text : List UInt8) : Block := Block.ofFn fun j => text.getD j 0

/-- `sprintf(name_table[mapping].path, path)` has its plain meaning when the
path fits and contains no conversion. -/
def PathFits (path : Path) : Prop := path.length < maxPathLen ∧ percent ∉ path

instance (path : Path) : Decidable (PathFits path) :=
  inferInstanceAs (Decidable (_ ∧ _))

end Sfs
