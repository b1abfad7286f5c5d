import LintMend.Check.Checker

/-!
# Weak cryptography

Calls of broken hash functions and ciphers. Where there is a replacement to drop in, a patch puts it
in the place of the name.
-/

namespace LintMend.WeakCrypto

/-- Weak algorithms and their replacements. -/
def algorithms : List (String × Option String) :=
  [("md5", some "sha256"), ("md4", some "sha256"), ("sha1", some "sha256"), ("des", none),
   ("rc4", none)]

/-- The pieces of a name between colons and dots. -/
def segments (name : String) : List String :=
  ((Text.splitWhen (fun c => c == ':' || c == '.') name.toList).filter (!·.isEmpty)).map
    String.ofList

/-- The first piece of an expression's name that names a weak algorithm, in any case, and its
replacement. -/
def weakSegment? (e : Expression) : Option (String × Option String) := do
  let name ← e.name
  (segments name).findSome? fun segment =>
    (algorithms.find? fun (weak, _) => weak.toList == Text.lowerAscii segment.toList).map
      fun (_, replacement) => (segment, replacement)

/-- The replacement with a capital letter if the name has one. -/
def matchCase (segment replacement : String) : String :=
  match segment.toList, replacement.toList with
  | c :: _, r :: rs => if c.isUpper then String.ofList (r.toUpper :: rs) else replacement
  | _, _ => replacement

def check (c : Context) : Entity → Outcome (List Issue)
  | .expression _ e =>
    match weakSegment? e with
    | none => .ok []
    | some (segment, replacement) => do
      let defect ← c.defectAt e.origin segment s!"`{segment}` is cryptographically broken"
      match replacement, Text.find? segment.toList e.text.toList with
      | some replacement, some offset =>
        let start ← addWord e.origin.span.start offset
        let stop ← addWord start (byteLength segment)
        let name := matchCase segment replacement
        let patch := Patch.replace ⟨s!"Replace `{segment}` with `{name}`", []⟩ c.unit.source
          ⟨start, stop⟩ name
        return [.withFix defect none (.patch patch)]
      | _, _ => return [⟨defect, none⟩]
  | _ => .ok []

/-- The rule. -/
def rule : Checker where
  id := "weak-crypto"
  severity := .error
  description := "Use of a broken hash function or cipher"
  matchers := [⟨.expression, some fun
    | .expression _ e =>
      (e.kind == .call || e.kind == .methodCall) && (weakSegment? e).isSome
    | _ => false⟩]
  check c e := .ofFound (check c e)

end LintMend.WeakCrypto
