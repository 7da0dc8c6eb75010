import Lowering.Text.Basic

namespace Lowering.Path

def slash : UInt8 := 0x2F

def isRooted (path : Text) : Bool := path.bytes.head? = some slash

/-- One more part of a path whose parts so far are `stack`, last one first. A part `..` takes away
the part before it; it is dropped at the root, and kept where a relative path has nothing to take
away. -/
def pushPart (rooted : Bool) (stack : List Text) (part : Text) : List Text :=
  if part.isEmpty ∨ part = "." then stack
  else if part = ".." then
    match stack with
    | [] => if rooted then [] else [part]
    | top :: below => if top = ".." then part :: stack else below
  else part :: stack

/-- The shortest path that means the same: no empty part, no `.`, and `..` only in front. -/
def clean (path : Text) : Text :=
  let rooted := isRooted path
  let parts := ((path.splitOn slash).foldl (pushPart rooted) []).reverse
  if rooted then ("/" : Text) ++ Text.join "/" parts
  else if parts.isEmpty then "." else Text.join "/" parts

/-- The path `inner` seen from the folder `outer`. -/
def join (outer inner : Text) : Text :=
  if outer.isEmpty then if inner.isEmpty then Text.empty else clean inner
  else clean (outer ++ "/" ++ inner)

def folder (path : Text) : Text :=
  clean ⟨(path.bytes.reverse.dropWhile (· ≠ slash)).reverse⟩

/-- The last part from its last dot on; empty if it has no dot. -/
def ending (path : Text) : Text :=
  let last := path.bytes.reverse.takeWhile (· ≠ slash)
  match last.span (· ≠ 0x2E) with
  | (_, []) => Text.empty
  | (after, dot :: _) => ⟨dot :: after.reverse⟩

/-- The path seen from the root, for a program that works in the folder `here`. -/
def absolute (here path : Text) : Text := if isRooted path then clean path else join here path

end Lowering.Path
