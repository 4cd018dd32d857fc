import NameResolution.Path.Normal
import NameResolution.Text.LowerCase

/-!
# Canonical keys

Every spelling of a file name gets one key: backslashes read as slashes, the
name seen from the current directory unless it is rooted, `.` and `..` resolved,
and letters lowered where the file system does not tell cases apart. The
caches know files by their keys only.
-/

namespace NameResolution

/-- The name a file is known by to the caches. -/
structure CanonicalKey where
  text : List Char
deriving Repr, DecidableEq, Inhabited

namespace CanonicalKey

def toString (k : CanonicalKey) : String := String.ofList k.text

/-- Compares two keys character by character. -/
def compare (a b : CanonicalKey) : Ordering :=
  Ord.compare (a.text.map Char.toNat) (b.text.map Char.toNat)

end CanonicalKey

/-- Whether a file system tells upper and lower case apart in file names. -/
inductive CasePolicy where
  | sensitive
  | insensitive
deriving Repr, DecidableEq, Inhabited

/-- A name as a file system with this policy tells it from others. -/
def CasePolicy.fold : CasePolicy → List Char → List Char
  | .sensitive, name => name
  | .insensitive, name => Text.lowerCase name

/-- Reads every backslash as a slash. -/
def unifySlashes (name : List Char) : List Char :=
  name.map fun c => if c = '\\' then '/' else c

/-- Is the name rooted by itself: `/…`, or a drive such as `c:…`? -/
def isRooted : List Char → Bool
  | '/' :: _ => true
  | d :: ':' :: _ => d.isAlpha
  | _ => false

/-- The key of a file name as seen from the directory `cwd`. -/
def CanonicalKey.of (policy : CasePolicy) (cwd : Path) (fileName : List Char) : CanonicalKey :=
  let name := unifySlashes fileName
  let whole : Path := if isRooted name || cwd.spelling.isEmpty then ⟨name⟩ else cwd.join ⟨name⟩
  ⟨policy.fold (unifySlashes whole.normalise.spelling)⟩

end NameResolution
