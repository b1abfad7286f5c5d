/-!
# Letters that differ only in case

Simple case folding: every character is mapped to one that stands for all its cases, one character
to one character. The tables list the characters beyond ASCII that are changed; they are those of
Unicode 16.
-/

namespace LintMend.Text

/-- Runs in which every second character is changed to the next one: the first of a run, and how many
are changed. -/
def foldPairs : List (Nat × Nat) :=
  [(256, 24), (306, 3), (313, 8), (330, 23), (377, 3), (386, 2), (391, 1), (395, 1), (401, 1),
   (408, 1), (416, 3), (423, 1), (428, 1), (431, 1), (435, 2), (440, 1), (444, 1), (453, 1),
   (456, 1), (459, 9), (478, 9), (498, 2), (504, 20), (546, 9), (571, 1), (577, 1), (582, 5),
   (880, 2), (886, 1), (962, 1), (984, 12), (1015, 1), (1018, 1), (1120, 17), (1162, 27), (1217, 7),
   (1232, 48), (7305, 1), (7680, 75), (7840, 48), (8579, 1), (11360, 1), (11367, 3), (11378, 1),
   (11381, 1), (11392, 50), (11499, 2), (11506, 1), (42560, 23), (42624, 14), (42786, 7),
   (42802, 31), (42873, 2), (42878, 5), (42891, 1), (42896, 2), (42902, 10), (42932, 8), (42951, 2),
   (42956, 1), (42960, 1), (42966, 3), (42997, 1), (64261, 1)]

/-- Runs that are moved: the first of a run, how many there are, and what the first is changed to. -/
def foldRuns : List (Nat × Nat × Nat) :=
  [(181, 1, 956), (192, 23, 224), (216, 7, 248), (376, 1, 255), (383, 1, 115), (385, 1, 595),
   (390, 1, 596), (393, 2, 598), (398, 1, 477), (399, 1, 601), (400, 1, 603), (403, 1, 608),
   (404, 1, 611), (406, 1, 617), (407, 1, 616), (412, 1, 623), (413, 1, 626), (415, 1, 629),
   (422, 1, 640), (425, 1, 643), (430, 1, 648), (433, 2, 650), (439, 1, 658), (452, 1, 454),
   (455, 1, 457), (458, 1, 460), (497, 1, 499), (502, 1, 405), (503, 1, 447), (544, 1, 414),
   (570, 1, 11365), (573, 1, 410), (574, 1, 11366), (579, 1, 384), (580, 1, 649), (581, 1, 652),
   (837, 1, 953), (895, 1, 1011), (902, 1, 940), (904, 3, 941), (908, 1, 972), (910, 2, 973),
   (913, 17, 945), (931, 9, 963), (975, 1, 983), (976, 1, 946), (977, 1, 952), (981, 1, 966),
   (982, 1, 960), (1008, 1, 954), (1009, 1, 961), (1012, 1, 952), (1013, 1, 949), (1017, 1, 1010),
   (1021, 3, 891), (1024, 16, 1104), (1040, 32, 1072), (1216, 1, 1231), (1329, 38, 1377),
   (4256, 38, 11520), (4295, 1, 11559), (4301, 1, 11565), (5112, 6, 5104), (7296, 1, 1074),
   (7297, 1, 1076), (7298, 1, 1086), (7299, 2, 1089), (7301, 1, 1090), (7302, 1, 1098),
   (7303, 1, 1123), (7304, 1, 42571), (7312, 43, 4304), (7357, 3, 4349), (7835, 1, 7777),
   (7838, 1, 223), (7944, 8, 7936), (7960, 6, 7952), (7976, 8, 7968), (7992, 8, 7984),
   (8008, 6, 8000), (8025, 1, 8017), (8027, 1, 8019), (8029, 1, 8021), (8031, 1, 8023),
   (8040, 8, 8032), (8072, 8, 8064), (8088, 8, 8080), (8104, 8, 8096), (8120, 2, 8112),
   (8122, 2, 8048), (8124, 1, 8115), (8126, 1, 953), (8136, 4, 8050), (8140, 1, 8131),
   (8147, 1, 912), (8152, 2, 8144), (8154, 2, 8054), (8163, 1, 944), (8168, 2, 8160),
   (8170, 2, 8058), (8172, 1, 8165), (8184, 2, 8056), (8186, 2, 8060), (8188, 1, 8179),
   (8486, 1, 969), (8490, 1, 107), (8491, 1, 229), (8498, 1, 8526), (8544, 16, 8560),
   (9398, 26, 9424), (11264, 48, 11312), (11362, 1, 619), (11363, 1, 7549), (11364, 1, 637),
   (11373, 1, 593), (11374, 1, 625), (11375, 1, 592), (11376, 1, 594), (11390, 2, 575),
   (42877, 1, 7545), (42893, 1, 613), (42922, 1, 614), (42923, 1, 604), (42924, 1, 609),
   (42925, 1, 620), (42926, 1, 618), (42928, 1, 670), (42929, 1, 647), (42930, 1, 669),
   (42931, 1, 43859), (42948, 1, 42900), (42949, 1, 642), (42950, 1, 7566), (42955, 1, 612),
   (42972, 1, 411), (43888, 80, 5024), (65313, 26, 65345), (66560, 40, 66600), (66736, 36, 66776),
   (66928, 11, 66967), (66940, 15, 66979), (66956, 7, 66995), (66964, 2, 67003), (68736, 51, 68800),
   (68944, 22, 68976), (71840, 32, 71872), (93760, 32, 93792), (125184, 34, 125218)]

/-- The character that stands for all cases of a letter. -/
def foldCase (c : Char) : Char :=
  let n := c.toNat
  if n < 0x80 then c.toLower
  else if foldPairs.any fun (first, count) =>
      first ≤ n && n < first + 2 * count && (n - first) % 2 == 0 then
    Char.ofNat (n + 1)
  else
    match foldRuns.find? fun (first, count, _) => first ≤ n && n < first + count with
    | some (first, _, target) => Char.ofNat (target + (n - first))
    | none => c

/-- The characters are the same but for their case. -/
def sameFolded (a b : Char) : Bool := foldCase a == foldCase b

end LintMend.Text
