import LanguageService.Uri.Domain.Direction
import LanguageService.Uri.Domain.Joining
import LanguageService.Uri.Domain.Spelling
import LanguageService.Uri.Punycode

namespace LanguageService.Uri.Domain

/-- What the labels that are spelled in ASCII, but stand for others, start with. -/
def mark : List Char := ['x', 'n', '-', '-']

def spellAll? : List Char → Option (List Char)
  | [] => some []
  | c :: cs => (spelling? c).bind fun s => (spellAll? cs).map (s ++ ·)

/-- Whether a text is in the spelling that names are brought to. -/
def isSpelled (cs : List Char) : Bool := spellAll? cs == some cs && canonical cs == cs

def meant? (label : List Char) : Option (List Char) :=
  if mark.isPrefixOf label then do
    let code := label.drop 4
    if code.isEmpty || code.getLast? == some '-' || code.length > 2000 ||
        !code.all Punycode.isBasic then none
    else
      let meaning ← Punycode.decode? code
      if isSpelled meaning && !mark.isPrefixOf meaning then return meaning else none
  else some label

def isLabel (label : List Char) : Bool :=
  !label.head?.any isMark && joinersSeen [] label &&
    (label.all Punycode.isBasic || label.length ≤ 1000)

def meantAll? : List (List Char) → Option (List (List Char))
  | [] => some []
  | l :: ls => (meant? l).bind fun m => (meantAll? ls).map (m :: ·)

def toAscii? (name : List Char) : Option (List Char) := do
  let labels ← meantAll? (splitOn '.' (canonical (← spellAll? name)))
  if labels.all isLabel && goOneWay labels then
    return ((labels.map Punycode.toAscii).intersperse ['.']).flatten
  else none

end LanguageService.Uri.Domain
