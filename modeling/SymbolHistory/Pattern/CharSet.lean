/-
# Pattern.CharSet -- sets of characters

A set is kept as it was written: ranges, unions, complements, and closure
under letter case.  `contains` gives its meaning.
-/
import SymbolHistory.Text.Category
import SymbolHistory.Text.LetterCase

set_option autoImplicit false

namespace SymbolHistory

namespace Pattern

inductive CharSet where
  | none
  | range (first last : Nat)
  | union (a b : CharSet)
  | complement (a : CharSet)
  /-- All characters that are in the set or differ from a member only in case. -/
  | anyCase (a : CharSet)
  /-- The characters whose category starts with these letters. -/
  | category (major : Char) (minor : Option Char)
  deriving Repr, DecidableEq

namespace CharSet

def contains : CharSet → Nat → Bool
  | none, _ => false
  | range first last, c => first ≤ c && c ≤ last
  | union a b, c => a.contains c || b.contains c
  | complement a, c => !a.contains c
  | anyCase a, c => (LetterCase.variants c).any a.contains
  | category major minor, c =>
    let g := Category.ofCode c
    g.major == major && minor.all (· == g.minor)

def single (c : Nat) : CharSet := range c c

def lastCode : Nat := 0x10FFFF

def everything : CharSet := range 0 lastCode

def unions (sets : List CharSet) : CharSet := sets.foldr union none

def ofRanges (rs : List (Nat × Nat)) : CharSet := unions (rs.map (fun r => range r.1 r.2))

/-! ## Named sets -/

def digits : CharSet := range 48 57

def space : CharSet := ofRanges [(9, 10), (12, 13), (32, 32)]

def word : CharSet := ofRanges [(48, 57), (65, 90), (95, 95), (97, 122)]

/-- The sets that a letter after a backslash names; a capital names the complement. -/
def ofLetter? (b : UInt8) : Option (CharSet × Bool) :=
  if b == 100 then some (digits, true)
  else if b == 68 then some (digits, false)
  else if b == 115 then some (space, true)
  else if b == 83 then some (space, false)
  else if b == 119 then some (word, true)
  else if b == 87 then some (word, false)
  else Option.none

/-- The sets named in square brackets with colons. -/
def bracketNames : List (String × List (Nat × Nat)) := [
  ("alnum", [(48, 57), (65, 90), (97, 122)]),
  ("alpha", [(65, 90), (97, 122)]),
  ("ascii", [(0, 127)]),
  ("blank", [(9, 9), (32, 32)]),
  ("cntrl", [(0, 31), (127, 127)]),
  ("digit", [(48, 57)]),
  ("graph", [(33, 126)]),
  ("lower", [(97, 122)]),
  ("print", [(32, 126)]),
  ("punct", [(33, 47), (58, 64), (91, 96), (123, 126)]),
  ("space", [(9, 13), (32, 32)]),
  ("upper", [(65, 90)]),
  ("word", [(48, 57), (65, 90), (95, 95), (97, 122)]),
  ("xdigit", [(48, 57), (65, 70), (97, 102)])]

/-- The set with a name in brackets, and whether it is meant itself or its complement. -/
def ofBracketName? (name : Bytes) : Option (CharSet × Bool) :=
  let (plain, positive) :=
    match name with
    | 94 :: rest => (rest, false)
    | _ => (name, true)
  (bracketNames.find? (fun n => lit n.1 == plain)).map (fun n => (ofRanges n.2, positive))

def categoryAliases : List (String × String) := [
  ("Letter", "L"), ("Casedletter", "Lc"), ("Uppercaseletter", "Lu"), ("Lowercaseletter", "Ll"),
  ("Titlecaseletter", "Lt"), ("Modifierletter", "Lm"), ("Otherletter", "Lo"), ("Mark", "M"),
  ("Combiningmark", "M"), ("Nonspacingmark", "Mn"), ("Spacingmark", "Mc"),
  ("Enclosingmark", "Me"), ("Number", "N"), ("Decimalnumber", "Nd"), ("Digit", "Nd"),
  ("Letternumber", "Nl"), ("Othernumber", "No"), ("Punctuation", "P"), ("Punct", "P"),
  ("Connectorpunctuation", "Pc"), ("Dashpunctuation", "Pd"), ("Openpunctuation", "Ps"),
  ("Closepunctuation", "Pe"), ("Initialpunctuation", "Pi"), ("Finalpunctuation", "Pf"),
  ("Otherpunctuation", "Po"), ("Symbol", "S"), ("Mathsymbol", "Sm"), ("Currencysymbol", "Sc"),
  ("Modifiersymbol", "Sk"), ("Othersymbol", "So"), ("Separator", "Z"), ("Spaceseparator", "Zs"),
  ("Lineseparator", "Zl"), ("Paragraphseparator", "Zp"), ("Other", "C"), ("Control", "Cc"),
  ("Cntrl", "Cc"), ("Format", "Cf"), ("Surrogate", "Cs"), ("Privateuse", "Co"),
  ("Unassigned", "Cn")]

/-- The categories, by major class. -/
def categoryNames : List String := [
  "C", "Cc", "Cf", "Cn", "Co", "Cs", "L", "Ll", "Lm", "Lo", "Lt", "Lu", "M", "Mc", "Me", "Mn",
  "N", "Nd", "Nl", "No", "P", "Pc", "Pd", "Pe", "Pf", "Pi", "Po", "Ps", "S", "Sc", "Sk", "Sm",
  "So", "Z", "Zl", "Zp", "Zs"]

def scripts : List (String × List (Nat × Nat)) := [
  ("Latin", [(65, 90), (97, 122), (170, 170), (186, 186), (192, 214), (216, 246), (248, 696),
    (736, 740), (7424, 7461), (7468, 7516), (7522, 7525), (7531, 7543), (7545, 7614),
    (7680, 7935), (8305, 8305), (8319, 8319), (8336, 8348), (8490, 8491), (8498, 8498),
    (8526, 8526), (8544, 8584), (11360, 11391), (42786, 42887), (42891, 42954), (42960, 42961),
    (42963, 42963), (42965, 42969), (42994, 43007), (43824, 43866), (43868, 43876),
    (43878, 43881), (64256, 64262), (65313, 65338), (65345, 65370), (67456, 67461),
    (67463, 67504), (67506, 67514), (122624, 122654), (122661, 122666)]),
  ("Greek", [(880, 883), (885, 887), (890, 893), (895, 895), (900, 900), (902, 902), (904, 906),
    (908, 908), (910, 929), (931, 993), (1008, 1023), (7462, 7466), (7517, 7521), (7526, 7530),
    (7615, 7615), (7936, 7957), (7960, 7965), (7968, 8005), (8008, 8013), (8016, 8023),
    (8025, 8025), (8027, 8027), (8029, 8029), (8031, 8061), (8064, 8116), (8118, 8132),
    (8134, 8147), (8150, 8155), (8157, 8175), (8178, 8180), (8182, 8190), (8486, 8486),
    (43877, 43877), (65856, 65934), (65952, 65952), (119296, 119365)]),
  ("Cyrillic", [(1024, 1156), (1159, 1327), (7296, 7304), (7467, 7467), (7544, 7544),
    (11744, 11775), (42560, 42655), (65070, 65071), (122928, 122989), (123023, 123023)]),
  ("Hebrew", [(1425, 1479), (1488, 1514), (1519, 1524), (64285, 64310), (64312, 64316),
    (64318, 64318), (64320, 64321), (64323, 64324), (64326, 64335)]),
  ("Arabic", [(1536, 1540), (1542, 1547), (1549, 1562), (1564, 1566), (1568, 1599), (1601, 1610),
    (1622, 1647), (1649, 1756), (1758, 1791), (1872, 1919), (2160, 2190), (2192, 2193),
    (2200, 2273), (2275, 2303), (64336, 64450), (64467, 64829), (64832, 64911), (64914, 64967),
    (64975, 64975), (65008, 65023), (65136, 65140), (65142, 65276)]),
  ("Devanagari", [(2304, 2384), (2389, 2403), (2406, 2431), (43232, 43263), (72448, 72457)]),
  ("Thai", [(3585, 3642), (3648, 3675)]),
  ("Georgian", [(4256, 4293), (4295, 4295), (4301, 4301), (4304, 4346), (4348, 4351),
    (7312, 7354), (7357, 7359), (11520, 11557), (11559, 11559), (11565, 11565)]),
  ("Hangul", [(4352, 4607), (12334, 12335), (12593, 12686), (12800, 12830), (12896, 12926),
    (43360, 43388), (44032, 55203), (55216, 55238), (55243, 55291), (65440, 65470),
    (65474, 65479), (65482, 65487), (65490, 65495), (65498, 65500)]),
  ("Hiragana", [(12353, 12438), (12445, 12447), (110593, 110879), (110898, 110898),
    (110928, 110930), (127488, 127488)]),
  ("Katakana", [(12449, 12538), (12541, 12543), (12784, 12799), (13008, 13054), (13056, 13143),
    (65382, 65391), (65393, 65437), (110576, 110579), (110581, 110587), (110589, 110590),
    (110592, 110592), (110880, 110882), (110933, 110933), (110948, 110951)]),
  ("Han", [(11904, 11929), (11931, 12019), (12032, 12245), (12293, 12293), (12295, 12295),
    (12321, 12329), (12344, 12347), (13312, 19903), (19968, 40959), (63744, 64109),
    (64112, 64217), (94178, 94179), (94192, 94193), (131072, 173791), (173824, 177977),
    (177984, 178205), (178208, 183969), (183984, 191456), (194560, 195101), (196608, 201546),
    (201552, 205743)]),
  ("Armenian", [(1329, 1366), (1369, 1418), (1421, 1423), (64275, 64279)])]

/-- A name in the form that names are looked up in: one capital, then small letters, without
blanks, hyphens and underscores. -/
def canonicalName (name : Bytes) : Bytes :=
  let letters := name.filter (fun b => b != 32 && b != 45 && b != 95)
  let small := letters.map (fun b => if 65 ≤ b && b ≤ 90 then b + 32 else b)
  match small with
  | b :: rest => (if 97 ≤ b && b ≤ 122 then b - 32 else b) :: rest
  | [] => []

def ofCategoryName? (name : Bytes) : Option CharSet :=
  if name == lit "Lc" then
    some (unions [category 'L' (some 'u'), category 'L' (some 'l'), category 'L' (some 't')])
  else
    (categoryNames.find? (fun n => lit n == name)).bind fun n =>
      match n.toList with
      | [major] => some (category major Option.none)
      | [major, minor] => some (category major (some minor))
      | _ => Option.none

def ofProperty? (name : Bytes) : Option CharSet :=
  let name := canonicalName name
  if name == lit "Any" then some everything
  else if name == lit "Assigned" then some (complement (category 'C' (some 'n')))
  else if name == lit "Ascii" then some (range 0 127)
  else
    ofCategoryName? name <|>
    (scripts.find? (fun s => lit s.1 == name)).map (fun s => ofRanges s.2) <|>
    ((categoryAliases.find? (fun a => lit a.1 == name)).bind fun a => ofCategoryName? (lit a.2))

end CharSet

end Pattern

end SymbolHistory
