import FapLang.Text.Kind

/-!
Lower case. The letters that have a lower form stand in runs: every letter of a run, or every second
one, moves by the same distance. Only sigma looks at its neighbours: it has a form of its own at the end
of a word.
-/

namespace FapLang.Text

/-- A first and a last letter, and how far the letters between them move. -/
abbrev CaseRun := Nat × Nat × Int

/-- Letters that move by one stand between their lower forms. -/
def CaseRun.covers : CaseRun → Nat → Bool
  | (first, last, distance), code =>
    first ≤ code && code ≤ last && (distance ≠ 1 || (code - first) % 2 == 0)

def lowerRuns : List CaseRun := [
  (65, 90, 32), (192, 214, 32), (216, 222, 32), (256, 302, 1), (306, 310, 1), (313, 327, 1),
  (330, 374, 1), (376, 376, -121), (377, 381, 1), (385, 385, 210), (386, 388, 1), (390, 390, 206),
  (391, 391, 1), (393, 394, 205), (395, 395, 1), (398, 398, 79), (399, 399, 202), (400, 400, 203),
  (401, 401, 1), (403, 403, 205), (404, 404, 207), (406, 406, 211), (407, 407, 209), (408, 408, 1),
  (412, 412, 211), (413, 413, 213), (415, 415, 214), (416, 420, 1), (422, 422, 218), (423, 423, 1),
  (425, 425, 218), (428, 428, 1), (430, 430, 218), (431, 431, 1), (433, 434, 217), (435, 437, 1),
  (439, 439, 219), (440, 440, 1), (444, 444, 1), (452, 452, 2), (453, 453, 1), (455, 455, 2),
  (456, 456, 1), (458, 458, 2), (459, 475, 1), (478, 494, 1), (497, 497, 2), (498, 500, 1),
  (502, 502, -97), (503, 503, -56), (504, 542, 1), (544, 544, -130), (546, 562, 1),
  (570, 570, 10795), (571, 571, 1), (573, 573, -163), (574, 574, 10792), (577, 577, 1),
  (579, 579, -195), (580, 580, 69), (581, 581, 71), (582, 590, 1), (880, 882, 1), (886, 886, 1),
  (895, 895, 116), (902, 902, 38), (904, 906, 37), (908, 908, 64), (910, 911, 63), (913, 929, 32),
  (931, 939, 32), (975, 975, 8), (984, 1006, 1), (1012, 1012, -60), (1015, 1015, 1),
  (1017, 1017, -7), (1018, 1018, 1), (1021, 1023, -130), (1024, 1039, 80), (1040, 1071, 32),
  (1120, 1152, 1), (1162, 1214, 1), (1216, 1216, 15), (1217, 1229, 1), (1232, 1326, 1),
  (1329, 1366, 48), (4256, 4293, 7264), (4295, 4295, 7264), (4301, 4301, 7264), (5024, 5103, 38864),
  (5104, 5109, 8), (7312, 7354, -3008), (7357, 7359, -3008), (7680, 7828, 1), (7838, 7838, -7615),
  (7840, 7934, 1), (7944, 7951, -8), (7960, 7965, -8), (7976, 7983, -8), (7992, 7999, -8),
  (8008, 8013, -8), (8025, 8025, -8), (8027, 8027, -8), (8029, 8029, -8), (8031, 8031, -8),
  (8040, 8047, -8), (8072, 8079, -8), (8088, 8095, -8), (8104, 8111, -8), (8120, 8121, -8),
  (8122, 8123, -74), (8124, 8124, -9), (8136, 8139, -86), (8140, 8140, -9), (8152, 8153, -8),
  (8154, 8155, -100), (8168, 8169, -8), (8170, 8171, -112), (8172, 8172, -7), (8184, 8185, -128),
  (8186, 8187, -126), (8188, 8188, -9), (8486, 8486, -7517), (8490, 8490, -8383),
  (8491, 8491, -8262), (8498, 8498, 28), (8544, 8559, 16), (8579, 8579, 1), (9398, 9423, 26),
  (11264, 11311, 48), (11360, 11360, 1), (11362, 11362, -10743), (11363, 11363, -3814),
  (11364, 11364, -10727), (11367, 11371, 1), (11373, 11373, -10780), (11374, 11374, -10749),
  (11375, 11375, -10783), (11376, 11376, -10782), (11378, 11378, 1), (11381, 11381, 1),
  (11390, 11391, -10815), (11392, 11490, 1), (11499, 11501, 1), (11506, 11506, 1),
  (42560, 42604, 1), (42624, 42650, 1), (42786, 42798, 1), (42802, 42862, 1), (42873, 42875, 1),
  (42877, 42877, -35332), (42878, 42886, 1), (42891, 42891, 1), (42893, 42893, -42280),
  (42896, 42898, 1), (42902, 42920, 1), (42922, 42922, -42308), (42923, 42923, -42319),
  (42924, 42924, -42315), (42925, 42925, -42305), (42926, 42926, -42308), (42928, 42928, -42258),
  (42929, 42929, -42282), (42930, 42930, -42261), (42931, 42931, 928), (42932, 42946, 1),
  (42948, 42948, -48), (42949, 42949, -42307), (42950, 42950, -35384), (42951, 42953, 1),
  (42960, 42960, 1), (42966, 42968, 1), (42997, 42997, 1), (65313, 65338, 32), (66560, 66599, 40),
  (66736, 66771, 40), (66928, 66938, 39), (66940, 66954, 39), (66956, 66962, 39),
  (66964, 66965, 39), (68736, 68786, 64), (71840, 71871, 32), (93760, 93791, 32),
  (125184, 125217, 34)]

/-- The dotted capital I is the one letter whose lower form is two characters long. -/
def lowerChar (c : Char) : List Char :=
  if c.toNat < 128 then
    [if 'A' ≤ c && c ≤ 'Z' then Char.ofNat (c.toNat + 32) else c]
  else if c.toNat == 304 then ['i', Char.ofNat 775]
  else
    match lowerRuns.find? (CaseRun.covers · c.toNat) with
    | some (_, _, distance) => [Char.ofNat (c.toNat + distance).toNat]
    | none => [c]

/-- Lower case of a text after `before`, the nearest character first. A capital sigma takes its
final form after a letter with case and before none. -/
def lowerFrom (before : List Char) : List Char → List Char
  | [] => []
  | c :: rest =>
    (if c.toNat == 931 then [if leadsCased before && !leadsCased rest then 'ς' else 'σ'] else lowerChar c) ++
      lowerFrom (c :: before) rest

def lower (s : String) : String :=
  String.ofList (lowerFrom [] s.toList)

end FapLang.Text
