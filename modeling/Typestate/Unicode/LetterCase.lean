import Typestate.Unicode.Boundaries

/-!
Upper case and the lower case of a single character, without regard to its neighbours.
-/

namespace Typestate.Unicode

/-- Where upper case characters begin and end. -/
def upperBoundaries : List Nat := [
  65, 91, 192, 215, 216, 223, 256, 257, 258, 259, 260, 261,
  262, 263, 264, 265, 266, 267, 268, 269, 270, 271, 272, 273,
  274, 275, 276, 277, 278, 279, 280, 281, 282, 283, 284, 285,
  286, 287, 288, 289, 290, 291, 292, 293, 294, 295, 296, 297,
  298, 299, 300, 301, 302, 303, 304, 305, 306, 307, 308, 309,
  310, 311, 313, 314, 315, 316, 317, 318, 319, 320, 321, 322,
  323, 324, 325, 326, 327, 328, 330, 331, 332, 333, 334, 335,
  336, 337, 338, 339, 340, 341, 342, 343, 344, 345, 346, 347,
  348, 349, 350, 351, 352, 353, 354, 355, 356, 357, 358, 359,
  360, 361, 362, 363, 364, 365, 366, 367, 368, 369, 370, 371,
  372, 373, 374, 375, 376, 378, 379, 380, 381, 382, 385, 387,
  388, 389, 390, 392, 393, 396, 398, 402, 403, 405, 406, 409,
  412, 414, 415, 417, 418, 419, 420, 421, 422, 424, 425, 426,
  428, 429, 430, 432, 433, 436, 437, 438, 439, 441, 444, 445,
  452, 453, 455, 456, 458, 459, 461, 462, 463, 464, 465, 466,
  467, 468, 469, 470, 471, 472, 473, 474, 475, 476, 478, 479,
  480, 481, 482, 483, 484, 485, 486, 487, 488, 489, 490, 491,
  492, 493, 494, 495, 497, 498, 500, 501, 502, 505, 506, 507,
  508, 509, 510, 511, 512, 513, 514, 515, 516, 517, 518, 519,
  520, 521, 522, 523, 524, 525, 526, 527, 528, 529, 530, 531,
  532, 533, 534, 535, 536, 537, 538, 539, 540, 541, 542, 543,
  544, 545, 546, 547, 548, 549, 550, 551, 552, 553, 554, 555,
  556, 557, 558, 559, 560, 561, 562, 563, 570, 572, 573, 575,
  577, 578, 579, 583, 584, 585, 586, 587, 588, 589, 590, 591,
  880, 881, 882, 883, 886, 887, 895, 896, 902, 903, 904, 907,
  908, 909, 910, 912, 913, 930, 931, 940, 975, 976, 978, 981,
  984, 985, 986, 987, 988, 989, 990, 991, 992, 993, 994, 995,
  996, 997, 998, 999, 1000, 1001, 1002, 1003, 1004, 1005, 1006, 1007,
  1012, 1013, 1015, 1016, 1017, 1019, 1021, 1072, 1120, 1121, 1122, 1123,
  1124, 1125, 1126, 1127, 1128, 1129, 1130, 1131, 1132, 1133, 1134, 1135,
  1136, 1137, 1138, 1139, 1140, 1141, 1142, 1143, 1144, 1145, 1146, 1147,
  1148, 1149, 1150, 1151, 1152, 1153, 1162, 1163, 1164, 1165, 1166, 1167,
  1168, 1169, 1170, 1171, 1172, 1173, 1174, 1175, 1176, 1177, 1178, 1179,
  1180, 1181, 1182, 1183, 1184, 1185, 1186, 1187, 1188, 1189, 1190, 1191,
  1192, 1193, 1194, 1195, 1196, 1197, 1198, 1199, 1200, 1201, 1202, 1203,
  1204, 1205, 1206, 1207, 1208, 1209, 1210, 1211, 1212, 1213, 1214, 1215,
  1216, 1218, 1219, 1220, 1221, 1222, 1223, 1224, 1225, 1226, 1227, 1228,
  1229, 1230, 1232, 1233, 1234, 1235, 1236, 1237, 1238, 1239, 1240, 1241,
  1242, 1243, 1244, 1245, 1246, 1247, 1248, 1249, 1250, 1251, 1252, 1253,
  1254, 1255, 1256, 1257, 1258, 1259, 1260, 1261, 1262, 1263, 1264, 1265,
  1266, 1267, 1268, 1269, 1270, 1271, 1272, 1273, 1274, 1275, 1276, 1277,
  1278, 1279, 1280, 1281, 1282, 1283, 1284, 1285, 1286, 1287, 1288, 1289,
  1290, 1291, 1292, 1293, 1294, 1295, 1296, 1297, 1298, 1299, 1300, 1301,
  1302, 1303, 1304, 1305, 1306, 1307, 1308, 1309, 1310, 1311, 1312, 1313,
  1314, 1315, 1316, 1317, 1318, 1319, 1320, 1321, 1322, 1323, 1324, 1325,
  1326, 1327, 1329, 1367, 4256, 4294, 4295, 4296, 4301, 4302, 5024, 5110,
  7312, 7355, 7357, 7360, 7680, 7681, 7682, 7683, 7684, 7685, 7686, 7687,
  7688, 7689, 7690, 7691, 7692, 7693, 7694, 7695, 7696, 7697, 7698, 7699,
  7700, 7701, 7702, 7703, 7704, 7705, 7706, 7707, 7708, 7709, 7710, 7711,
  7712, 7713, 7714, 7715, 7716, 7717, 7718, 7719, 7720, 7721, 7722, 7723,
  7724, 7725, 7726, 7727, 7728, 7729, 7730, 7731, 7732, 7733, 7734, 7735,
  7736, 7737, 7738, 7739, 7740, 7741, 7742, 7743, 7744, 7745, 7746, 7747,
  7748, 7749, 7750, 7751, 7752, 7753, 7754, 7755, 7756, 7757, 7758, 7759,
  7760, 7761, 7762, 7763, 7764, 7765, 7766, 7767, 7768, 7769, 7770, 7771,
  7772, 7773, 7774, 7775, 7776, 7777, 7778, 7779, 7780, 7781, 7782, 7783,
  7784, 7785, 7786, 7787, 7788, 7789, 7790, 7791, 7792, 7793, 7794, 7795,
  7796, 7797, 7798, 7799, 7800, 7801, 7802, 7803, 7804, 7805, 7806, 7807,
  7808, 7809, 7810, 7811, 7812, 7813, 7814, 7815, 7816, 7817, 7818, 7819,
  7820, 7821, 7822, 7823, 7824, 7825, 7826, 7827, 7828, 7829, 7838, 7839,
  7840, 7841, 7842, 7843, 7844, 7845, 7846, 7847, 7848, 7849, 7850, 7851,
  7852, 7853, 7854, 7855, 7856, 7857, 7858, 7859, 7860, 7861, 7862, 7863,
  7864, 7865, 7866, 7867, 7868, 7869, 7870, 7871, 7872, 7873, 7874, 7875,
  7876, 7877, 7878, 7879, 7880, 7881, 7882, 7883, 7884, 7885, 7886, 7887,
  7888, 7889, 7890, 7891, 7892, 7893, 7894, 7895, 7896, 7897, 7898, 7899,
  7900, 7901, 7902, 7903, 7904, 7905, 7906, 7907, 7908, 7909, 7910, 7911,
  7912, 7913, 7914, 7915, 7916, 7917, 7918, 7919, 7920, 7921, 7922, 7923,
  7924, 7925, 7926, 7927, 7928, 7929, 7930, 7931, 7932, 7933, 7934, 7935,
  7944, 7952, 7960, 7966, 7976, 7984, 7992, 8000, 8008, 8014, 8025, 8026,
  8027, 8028, 8029, 8030, 8031, 8032, 8040, 8048, 8120, 8124, 8136, 8140,
  8152, 8156, 8168, 8173, 8184, 8188, 8450, 8451, 8455, 8456, 8459, 8462,
  8464, 8467, 8469, 8470, 8473, 8478, 8484, 8485, 8486, 8487, 8488, 8489,
  8490, 8494, 8496, 8500, 8510, 8512, 8517, 8518, 8544, 8560, 8579, 8580,
  9398, 9424, 11264, 11312, 11360, 11361, 11362, 11365, 11367, 11368, 11369, 11370,
  11371, 11372, 11373, 11377, 11378, 11379, 11381, 11382, 11390, 11393, 11394, 11395,
  11396, 11397, 11398, 11399, 11400, 11401, 11402, 11403, 11404, 11405, 11406, 11407,
  11408, 11409, 11410, 11411, 11412, 11413, 11414, 11415, 11416, 11417, 11418, 11419,
  11420, 11421, 11422, 11423, 11424, 11425, 11426, 11427, 11428, 11429, 11430, 11431,
  11432, 11433, 11434, 11435, 11436, 11437, 11438, 11439, 11440, 11441, 11442, 11443,
  11444, 11445, 11446, 11447, 11448, 11449, 11450, 11451, 11452, 11453, 11454, 11455,
  11456, 11457, 11458, 11459, 11460, 11461, 11462, 11463, 11464, 11465, 11466, 11467,
  11468, 11469, 11470, 11471, 11472, 11473, 11474, 11475, 11476, 11477, 11478, 11479,
  11480, 11481, 11482, 11483, 11484, 11485, 11486, 11487, 11488, 11489, 11490, 11491,
  11499, 11500, 11501, 11502, 11506, 11507, 42560, 42561, 42562, 42563, 42564, 42565,
  42566, 42567, 42568, 42569, 42570, 42571, 42572, 42573, 42574, 42575, 42576, 42577,
  42578, 42579, 42580, 42581, 42582, 42583, 42584, 42585, 42586, 42587, 42588, 42589,
  42590, 42591, 42592, 42593, 42594, 42595, 42596, 42597, 42598, 42599, 42600, 42601,
  42602, 42603, 42604, 42605, 42624, 42625, 42626, 42627, 42628, 42629, 42630, 42631,
  42632, 42633, 42634, 42635, 42636, 42637, 42638, 42639, 42640, 42641, 42642, 42643,
  42644, 42645, 42646, 42647, 42648, 42649, 42650, 42651, 42786, 42787, 42788, 42789,
  42790, 42791, 42792, 42793, 42794, 42795, 42796, 42797, 42798, 42799, 42802, 42803,
  42804, 42805, 42806, 42807, 42808, 42809, 42810, 42811, 42812, 42813, 42814, 42815,
  42816, 42817, 42818, 42819, 42820, 42821, 42822, 42823, 42824, 42825, 42826, 42827,
  42828, 42829, 42830, 42831, 42832, 42833, 42834, 42835, 42836, 42837, 42838, 42839,
  42840, 42841, 42842, 42843, 42844, 42845, 42846, 42847, 42848, 42849, 42850, 42851,
  42852, 42853, 42854, 42855, 42856, 42857, 42858, 42859, 42860, 42861, 42862, 42863,
  42873, 42874, 42875, 42876, 42877, 42879, 42880, 42881, 42882, 42883, 42884, 42885,
  42886, 42887, 42891, 42892, 42893, 42894, 42896, 42897, 42898, 42899, 42902, 42903,
  42904, 42905, 42906, 42907, 42908, 42909, 42910, 42911, 42912, 42913, 42914, 42915,
  42916, 42917, 42918, 42919, 42920, 42921, 42922, 42927, 42928, 42933, 42934, 42935,
  42936, 42937, 42938, 42939, 42940, 42941, 42942, 42943, 42944, 42945, 42946, 42947,
  42948, 42952, 42953, 42954, 42960, 42961, 42966, 42967, 42968, 42969, 42997, 42998,
  65313, 65339, 66560, 66600, 66736, 66772, 66928, 66939, 66940, 66955, 66956, 66963,
  66964, 66966, 68736, 68787, 71840, 71872, 93760, 93792, 119808, 119834, 119860, 119886,
  119912, 119938, 119964, 119965, 119966, 119968, 119970, 119971, 119973, 119975, 119977, 119981,
  119982, 119990, 120016, 120042, 120068, 120070, 120071, 120075, 120077, 120085, 120086, 120093,
  120120, 120122, 120123, 120127, 120128, 120133, 120134, 120135, 120138, 120145, 120172, 120198,
  120224, 120250, 120276, 120302, 120328, 120354, 120380, 120406, 120432, 120458, 120488, 120513,
  120546, 120571, 120604, 120629, 120662, 120687, 120720, 120745, 120778, 120779, 125184, 125218,
  127280, 127306, 127312, 127338, 127344, 127370]

/-- The character is upper case; a title case letter is not. -/
def isUpper (c : Char) : Bool :=
  if c.toNat < 128 then c.isUpper else inBoundaries upperBoundaries c.toNat

/-- Code points `first`, `first + step`, … up to `last` that lie a fixed distance from their lower
case: `up` above it and `down` below it, one of the two being zero. -/
structure CaseRun where
  first : Nat
  last : Nat
  step : Nat
  up : Nat
  down : Nat

def CaseRun.covers (r : CaseRun) (n : Nat) : Bool :=
  r.first ≤ n && n ≤ r.last && (n - r.first) % r.step == 0

/-- Every character beyond ASCII with a lower case of one other character. -/
def caseRuns : List CaseRun := [
  ⟨192, 214, 1, 0, 32⟩, ⟨216, 222, 1, 0, 32⟩, ⟨256, 302, 2, 0, 1⟩, ⟨306, 310, 2, 0, 1⟩,
  ⟨313, 327, 2, 0, 1⟩, ⟨330, 374, 2, 0, 1⟩, ⟨376, 376, 1, 121, 0⟩, ⟨377, 381, 2, 0, 1⟩,
  ⟨385, 385, 1, 0, 210⟩, ⟨386, 388, 2, 0, 1⟩, ⟨390, 390, 1, 0, 206⟩, ⟨391, 391, 1, 0, 1⟩,
  ⟨393, 394, 1, 0, 205⟩, ⟨395, 395, 1, 0, 1⟩, ⟨398, 398, 1, 0, 79⟩, ⟨399, 399, 1, 0, 202⟩,
  ⟨400, 400, 1, 0, 203⟩, ⟨401, 401, 1, 0, 1⟩, ⟨403, 403, 1, 0, 205⟩, ⟨404, 404, 1, 0, 207⟩,
  ⟨406, 406, 1, 0, 211⟩, ⟨407, 407, 1, 0, 209⟩, ⟨408, 408, 1, 0, 1⟩, ⟨412, 412, 1, 0, 211⟩,
  ⟨413, 413, 1, 0, 213⟩, ⟨415, 415, 1, 0, 214⟩, ⟨416, 420, 2, 0, 1⟩, ⟨422, 422, 1, 0, 218⟩,
  ⟨423, 423, 1, 0, 1⟩, ⟨425, 425, 1, 0, 218⟩, ⟨428, 428, 1, 0, 1⟩, ⟨430, 430, 1, 0, 218⟩,
  ⟨431, 431, 1, 0, 1⟩, ⟨433, 434, 1, 0, 217⟩, ⟨435, 437, 2, 0, 1⟩, ⟨439, 439, 1, 0, 219⟩,
  ⟨440, 440, 1, 0, 1⟩, ⟨444, 444, 1, 0, 1⟩, ⟨452, 452, 1, 0, 2⟩, ⟨453, 453, 1, 0, 1⟩,
  ⟨455, 455, 1, 0, 2⟩, ⟨456, 456, 1, 0, 1⟩, ⟨458, 458, 1, 0, 2⟩, ⟨459, 475, 2, 0, 1⟩,
  ⟨478, 494, 2, 0, 1⟩, ⟨497, 497, 1, 0, 2⟩, ⟨498, 500, 2, 0, 1⟩, ⟨502, 502, 1, 97, 0⟩,
  ⟨503, 503, 1, 56, 0⟩, ⟨504, 542, 2, 0, 1⟩, ⟨544, 544, 1, 130, 0⟩, ⟨546, 562, 2, 0, 1⟩,
  ⟨570, 570, 1, 0, 10795⟩, ⟨571, 571, 1, 0, 1⟩, ⟨573, 573, 1, 163, 0⟩, ⟨574, 574, 1, 0, 10792⟩,
  ⟨577, 577, 1, 0, 1⟩, ⟨579, 579, 1, 195, 0⟩, ⟨580, 580, 1, 0, 69⟩, ⟨581, 581, 1, 0, 71⟩,
  ⟨582, 590, 2, 0, 1⟩, ⟨880, 882, 2, 0, 1⟩, ⟨886, 886, 1, 0, 1⟩, ⟨895, 895, 1, 0, 116⟩,
  ⟨902, 902, 1, 0, 38⟩, ⟨904, 906, 1, 0, 37⟩, ⟨908, 908, 1, 0, 64⟩, ⟨910, 911, 1, 0, 63⟩,
  ⟨913, 929, 1, 0, 32⟩, ⟨931, 939, 1, 0, 32⟩, ⟨975, 975, 1, 0, 8⟩, ⟨984, 1006, 2, 0, 1⟩,
  ⟨1012, 1012, 1, 60, 0⟩, ⟨1015, 1015, 1, 0, 1⟩, ⟨1017, 1017, 1, 7, 0⟩, ⟨1018, 1018, 1, 0, 1⟩,
  ⟨1021, 1023, 1, 130, 0⟩, ⟨1024, 1039, 1, 0, 80⟩, ⟨1040, 1071, 1, 0, 32⟩, ⟨1120, 1152, 2, 0, 1⟩,
  ⟨1162, 1214, 2, 0, 1⟩, ⟨1216, 1216, 1, 0, 15⟩, ⟨1217, 1229, 2, 0, 1⟩, ⟨1232, 1326, 2, 0, 1⟩,
  ⟨1329, 1366, 1, 0, 48⟩, ⟨4256, 4293, 1, 0, 7264⟩, ⟨4295, 4295, 1, 0, 7264⟩, ⟨4301, 4301, 1, 0, 7264⟩,
  ⟨5024, 5103, 1, 0, 38864⟩, ⟨5104, 5109, 1, 0, 8⟩, ⟨7312, 7354, 1, 3008, 0⟩, ⟨7357, 7359, 1, 3008, 0⟩,
  ⟨7680, 7828, 2, 0, 1⟩, ⟨7838, 7838, 1, 7615, 0⟩, ⟨7840, 7934, 2, 0, 1⟩, ⟨7944, 7951, 1, 8, 0⟩,
  ⟨7960, 7965, 1, 8, 0⟩, ⟨7976, 7983, 1, 8, 0⟩, ⟨7992, 7999, 1, 8, 0⟩, ⟨8008, 8013, 1, 8, 0⟩,
  ⟨8025, 8031, 2, 8, 0⟩, ⟨8040, 8047, 1, 8, 0⟩, ⟨8072, 8079, 1, 8, 0⟩, ⟨8088, 8095, 1, 8, 0⟩,
  ⟨8104, 8111, 1, 8, 0⟩, ⟨8120, 8121, 1, 8, 0⟩, ⟨8122, 8123, 1, 74, 0⟩, ⟨8124, 8124, 1, 9, 0⟩,
  ⟨8136, 8139, 1, 86, 0⟩, ⟨8140, 8140, 1, 9, 0⟩, ⟨8152, 8153, 1, 8, 0⟩, ⟨8154, 8155, 1, 100, 0⟩,
  ⟨8168, 8169, 1, 8, 0⟩, ⟨8170, 8171, 1, 112, 0⟩, ⟨8172, 8172, 1, 7, 0⟩, ⟨8184, 8185, 1, 128, 0⟩,
  ⟨8186, 8187, 1, 126, 0⟩, ⟨8188, 8188, 1, 9, 0⟩, ⟨8486, 8486, 1, 7517, 0⟩, ⟨8490, 8490, 1, 8383, 0⟩,
  ⟨8491, 8491, 1, 8262, 0⟩, ⟨8498, 8498, 1, 0, 28⟩, ⟨8544, 8559, 1, 0, 16⟩, ⟨8579, 8579, 1, 0, 1⟩,
  ⟨9398, 9423, 1, 0, 26⟩, ⟨11264, 11311, 1, 0, 48⟩, ⟨11360, 11360, 1, 0, 1⟩, ⟨11362, 11362, 1, 10743, 0⟩,
  ⟨11363, 11363, 1, 3814, 0⟩, ⟨11364, 11364, 1, 10727, 0⟩, ⟨11367, 11371, 2, 0, 1⟩, ⟨11373, 11373, 1, 10780, 0⟩,
  ⟨11374, 11374, 1, 10749, 0⟩, ⟨11375, 11375, 1, 10783, 0⟩, ⟨11376, 11376, 1, 10782, 0⟩, ⟨11378, 11378, 1, 0, 1⟩,
  ⟨11381, 11381, 1, 0, 1⟩, ⟨11390, 11391, 1, 10815, 0⟩, ⟨11392, 11490, 2, 0, 1⟩, ⟨11499, 11501, 2, 0, 1⟩,
  ⟨11506, 11506, 1, 0, 1⟩, ⟨42560, 42604, 2, 0, 1⟩, ⟨42624, 42650, 2, 0, 1⟩, ⟨42786, 42798, 2, 0, 1⟩,
  ⟨42802, 42862, 2, 0, 1⟩, ⟨42873, 42875, 2, 0, 1⟩, ⟨42877, 42877, 1, 35332, 0⟩, ⟨42878, 42886, 2, 0, 1⟩,
  ⟨42891, 42891, 1, 0, 1⟩, ⟨42893, 42893, 1, 42280, 0⟩, ⟨42896, 42898, 2, 0, 1⟩, ⟨42902, 42920, 2, 0, 1⟩,
  ⟨42922, 42922, 1, 42308, 0⟩, ⟨42923, 42923, 1, 42319, 0⟩, ⟨42924, 42924, 1, 42315, 0⟩, ⟨42925, 42925, 1, 42305, 0⟩,
  ⟨42926, 42926, 1, 42308, 0⟩, ⟨42928, 42928, 1, 42258, 0⟩, ⟨42929, 42929, 1, 42282, 0⟩, ⟨42930, 42930, 1, 42261, 0⟩,
  ⟨42931, 42931, 1, 0, 928⟩, ⟨42932, 42946, 2, 0, 1⟩, ⟨42948, 42948, 1, 48, 0⟩, ⟨42949, 42949, 1, 42307, 0⟩,
  ⟨42950, 42950, 1, 35384, 0⟩, ⟨42951, 42953, 2, 0, 1⟩, ⟨42960, 42960, 1, 0, 1⟩, ⟨42966, 42968, 2, 0, 1⟩,
  ⟨42997, 42997, 1, 0, 1⟩, ⟨65313, 65338, 1, 0, 32⟩, ⟨66560, 66599, 1, 0, 40⟩, ⟨66736, 66771, 1, 0, 40⟩,
  ⟨66928, 66938, 1, 0, 39⟩, ⟨66940, 66954, 1, 0, 39⟩, ⟨66956, 66962, 1, 0, 39⟩, ⟨66964, 66965, 1, 0, 39⟩,
  ⟨68736, 68786, 1, 0, 64⟩, ⟨71840, 71871, 1, 0, 32⟩, ⟨93760, 93791, 1, 0, 32⟩, ⟨125184, 125217, 1, 0, 34⟩]

/-- The lower case of a character. Only the dotted capital I has one of two characters. -/
def lower (c : Char) : List Char :=
  if c.toNat < 128 then [c.toLower]
  else if c.toNat == 0x130 then ['i', Char.ofNat 0x307]
  else match caseRuns.find? (·.covers c.toNat) with
    | some r => [Char.ofNat (c.toNat - r.up + r.down)]
    | none => [c]

/-- A character is a small letter of the alphabet but for its case. The long s and the dotless i have
letters of the alphabet as their upper case. -/
def sameLetter (letter c : Char) : Bool :=
  c.toLower == letter || (c == 'ſ' && letter == 's') || (c == 'ı' && letter == 'i')

/-- A text is a word of small letters but for its case. -/
def sameWord : List Char → List Char → Bool
  | [], cs => cs.isEmpty
  | _ :: _, [] => false
  | k :: ks, c :: cs => sameLetter k c && sameWord ks cs

end Typestate.Unicode
