/-!
# Compatibility folding

Two spellings of a name that differ only in the presentation form of their letters
(a symbol variant of a Greek letter, a full-width or a mathematical letter, a ligature)
denote the same name. Folding replaces each such character by the plain characters it
stands for. The tables cover the alphabetic scripts; ideographs are left as they are. Each
character is folded by itself, so a letter and a combining mark behind it stay two characters.
-/

namespace QuantFamily.Text

/-- Runs of characters with a single-character plain form: the first and last code point
of the run, and the plain form of the first; the others follow at the same distance. -/
def foldedRuns : List (Nat × Nat × Nat) :=
  [(0xaa, 0xaa, 0x61), (0xb5, 0xb5, 0x3bc), (0xba, 0xba, 0x6f), (0x17f, 0x17f, 0x73),
   (0x2b0, 0x2b0, 0x68), (0x2b1, 0x2b1, 0x266), (0x2b2, 0x2b2, 0x6a), (0x2b3, 0x2b3, 0x72),
   (0x2b4, 0x2b4, 0x279), (0x2b5, 0x2b5, 0x27b), (0x2b6, 0x2b6, 0x281), (0x2b7, 0x2b7, 0x77),
   (0x2b8, 0x2b8, 0x79), (0x2e0, 0x2e0, 0x263), (0x2e1, 0x2e1, 0x6c), (0x2e2, 0x2e2, 0x73),
   (0x2e3, 0x2e3, 0x78), (0x2e4, 0x2e4, 0x295), (0x340, 0x341, 0x300), (0x343, 0x343, 0x313),
   (0x374, 0x374, 0x2b9), (0x387, 0x387, 0xb7), (0x3d0, 0x3d0, 0x3b2), (0x3d1, 0x3d1, 0x3b8),
   (0x3d2, 0x3d2, 0x3a5), (0x3d3, 0x3d3, 0x38e), (0x3d4, 0x3d4, 0x3ab), (0x3d5, 0x3d5, 0x3c6),
   (0x3d6, 0x3d6, 0x3c0), (0x3f0, 0x3f0, 0x3ba), (0x3f1, 0x3f2, 0x3c1), (0x3f4, 0x3f4, 0x398),
   (0x3f5, 0x3f5, 0x3b5), (0x3f9, 0x3f9, 0x3a3), (0x10fc, 0x10fc, 0x10dc),
   (0x1d2c, 0x1d2c, 0x41), (0x1d2d, 0x1d2d, 0xc6), (0x1d2e, 0x1d2e, 0x42),
   (0x1d30, 0x1d31, 0x44), (0x1d32, 0x1d32, 0x18e), (0x1d33, 0x1d3a, 0x47),
   (0x1d3c, 0x1d3c, 0x4f), (0x1d3d, 0x1d3d, 0x222), (0x1d3e, 0x1d3e, 0x50),
   (0x1d3f, 0x1d3f, 0x52), (0x1d40, 0x1d41, 0x54), (0x1d42, 0x1d42, 0x57),
   (0x1d43, 0x1d43, 0x61), (0x1d44, 0x1d45, 0x250), (0x1d46, 0x1d46, 0x1d02),
   (0x1d47, 0x1d47, 0x62), (0x1d48, 0x1d49, 0x64), (0x1d4a, 0x1d4a, 0x259),
   (0x1d4b, 0x1d4c, 0x25b), (0x1d4d, 0x1d4d, 0x67), (0x1d4f, 0x1d4f, 0x6b),
   (0x1d50, 0x1d50, 0x6d), (0x1d51, 0x1d51, 0x14b), (0x1d52, 0x1d52, 0x6f),
   (0x1d53, 0x1d53, 0x254), (0x1d54, 0x1d55, 0x1d16), (0x1d56, 0x1d56, 0x70),
   (0x1d57, 0x1d58, 0x74), (0x1d59, 0x1d59, 0x1d1d), (0x1d5a, 0x1d5a, 0x26f),
   (0x1d5b, 0x1d5b, 0x76), (0x1d5c, 0x1d5c, 0x1d25), (0x1d5d, 0x1d5f, 0x3b2),
   (0x1d60, 0x1d61, 0x3c6), (0x1d62, 0x1d62, 0x69), (0x1d63, 0x1d63, 0x72),
   (0x1d64, 0x1d65, 0x75), (0x1d66, 0x1d67, 0x3b2), (0x1d68, 0x1d68, 0x3c1),
   (0x1d69, 0x1d6a, 0x3c6), (0x1d78, 0x1d78, 0x43d), (0x1d9b, 0x1d9b, 0x252),
   (0x1d9c, 0x1d9c, 0x63), (0x1d9d, 0x1d9d, 0x255), (0x1d9e, 0x1d9e, 0xf0),
   (0x1d9f, 0x1d9f, 0x25c), (0x1da0, 0x1da0, 0x66), (0x1da1, 0x1da1, 0x25f),
   (0x1da2, 0x1da2, 0x261), (0x1da3, 0x1da3, 0x265), (0x1da4, 0x1da6, 0x268),
   (0x1da7, 0x1da7, 0x1d7b), (0x1da8, 0x1da8, 0x29d), (0x1da9, 0x1da9, 0x26d),
   (0x1daa, 0x1daa, 0x1d85), (0x1dab, 0x1dab, 0x29f), (0x1dac, 0x1dac, 0x271),
   (0x1dad, 0x1dad, 0x270), (0x1dae, 0x1db1, 0x272), (0x1db2, 0x1db2, 0x278),
   (0x1db3, 0x1db4, 0x282), (0x1db5, 0x1db5, 0x1ab), (0x1db6, 0x1db7, 0x289),
   (0x1db8, 0x1db8, 0x1d1c), (0x1db9, 0x1dba, 0x28b), (0x1dbb, 0x1dbb, 0x7a),
   (0x1dbc, 0x1dbe, 0x290), (0x1dbf, 0x1dbf, 0x3b8), (0x1e9b, 0x1e9b, 0x1e61),
   (0x1f71, 0x1f71, 0x3ac), (0x1f73, 0x1f73, 0x3ad), (0x1f75, 0x1f75, 0x3ae),
   (0x1f77, 0x1f77, 0x3af), (0x1f79, 0x1f79, 0x3cc), (0x1f7b, 0x1f7b, 0x3cd),
   (0x1f7d, 0x1f7d, 0x3ce), (0x1fbb, 0x1fbb, 0x386), (0x1fbe, 0x1fbe, 0x3b9),
   (0x1fc9, 0x1fc9, 0x388), (0x1fcb, 0x1fcb, 0x389), (0x1fd3, 0x1fd3, 0x390),
   (0x1fdb, 0x1fdb, 0x38a), (0x1fe3, 0x1fe3, 0x3b0), (0x1feb, 0x1feb, 0x38e),
   (0x1ff9, 0x1ff9, 0x38c), (0x1ffb, 0x1ffb, 0x38f), (0x2071, 0x2071, 0x69),
   (0x207f, 0x207f, 0x6e), (0x2090, 0x2090, 0x61), (0x2091, 0x2091, 0x65),
   (0x2092, 0x2092, 0x6f), (0x2093, 0x2093, 0x78), (0x2094, 0x2094, 0x259),
   (0x2095, 0x2095, 0x68), (0x2096, 0x2099, 0x6b), (0x209a, 0x209a, 0x70),
   (0x209b, 0x209c, 0x73), (0x2102, 0x2102, 0x43), (0x2107, 0x2107, 0x190),
   (0x210a, 0x210a, 0x67), (0x210b, 0x210b, 0x48), (0x210c, 0x210c, 0x48),
   (0x210d, 0x210d, 0x48), (0x210e, 0x210e, 0x68), (0x210f, 0x210f, 0x127),
   (0x2110, 0x2110, 0x49), (0x2111, 0x2111, 0x49), (0x2112, 0x2112, 0x4c),
   (0x2113, 0x2113, 0x6c), (0x2115, 0x2115, 0x4e), (0x2119, 0x211b, 0x50),
   (0x211c, 0x211c, 0x52), (0x211d, 0x211d, 0x52), (0x2124, 0x2124, 0x5a),
   (0x2126, 0x2126, 0x3a9), (0x2128, 0x2128, 0x5a), (0x212a, 0x212a, 0x4b),
   (0x212b, 0x212b, 0xc5), (0x212c, 0x212d, 0x42), (0x212f, 0x212f, 0x65),
   (0x2130, 0x2131, 0x45), (0x2133, 0x2133, 0x4d), (0x2134, 0x2134, 0x6f),
   (0x2135, 0x2138, 0x5d0), (0x2139, 0x2139, 0x69), (0x213c, 0x213c, 0x3c0),
   (0x213d, 0x213d, 0x3b3), (0x213e, 0x213e, 0x393), (0x213f, 0x213f, 0x3a0),
   (0x2145, 0x2145, 0x44), (0x2146, 0x2147, 0x64), (0x2148, 0x2149, 0x69),
   (0x2160, 0x2160, 0x49), (0x2164, 0x2164, 0x56), (0x2169, 0x2169, 0x58),
   (0x216c, 0x216c, 0x4c), (0x216d, 0x216e, 0x43), (0x216f, 0x216f, 0x4d),
   (0x2170, 0x2170, 0x69), (0x2174, 0x2174, 0x76), (0x2179, 0x2179, 0x78),
   (0x217c, 0x217c, 0x6c), (0x217d, 0x217e, 0x63), (0x217f, 0x217f, 0x6d),
   (0x2c7c, 0x2c7c, 0x6a), (0x2c7d, 0x2c7d, 0x56), (0x2d6f, 0x2d6f, 0x2d61),
   (0x3038, 0x3038, 0x5341), (0x3039, 0x303a, 0x5344), (0xa69c, 0xa69c, 0x44a),
   (0xa69d, 0xa69d, 0x44c), (0xa770, 0xa770, 0xa76f), (0xa7f2, 0xa7f2, 0x43),
   (0xa7f3, 0xa7f3, 0x46), (0xa7f4, 0xa7f4, 0x51), (0xa7f8, 0xa7f8, 0x126),
   (0xa7f9, 0xa7f9, 0x153), (0xab5c, 0xab5c, 0xa727), (0xab5d, 0xab5d, 0xab37),
   (0xab5e, 0xab5e, 0x26b), (0xab5f, 0xab5f, 0xab52), (0xab69, 0xab69, 0x28d),
   (0xfb20, 0xfb20, 0x5e2), (0xfb21, 0xfb21, 0x5d0), (0xfb22, 0xfb23, 0x5d3),
   (0xfb24, 0xfb26, 0x5db), (0xfb27, 0xfb27, 0x5e8), (0xfb28, 0xfb28, 0x5ea),
   (0xff10, 0xff19, 0x30), (0xff21, 0xff3a, 0x41), (0xff3f, 0xff3f, 0x5f),
   (0xff41, 0xff5a, 0x61), (0xff66, 0xff66, 0x30f2), (0xff67, 0xff67, 0x30a1),
   (0xff68, 0xff68, 0x30a3), (0xff69, 0xff69, 0x30a5), (0xff6a, 0xff6a, 0x30a7),
   (0xff6b, 0xff6b, 0x30a9), (0xff6c, 0xff6c, 0x30e3), (0xff6d, 0xff6d, 0x30e5),
   (0xff6e, 0xff6e, 0x30e7), (0xff6f, 0xff6f, 0x30c3), (0xff70, 0xff70, 0x30fc),
   (0xff71, 0xff71, 0x30a2), (0xff72, 0xff72, 0x30a4), (0xff73, 0xff73, 0x30a6),
   (0xff74, 0xff74, 0x30a8), (0xff75, 0xff76, 0x30aa), (0xff77, 0xff77, 0x30ad),
   (0xff78, 0xff78, 0x30af), (0xff79, 0xff79, 0x30b1), (0xff7a, 0xff7a, 0x30b3),
   (0xff7b, 0xff7b, 0x30b5), (0xff7c, 0xff7c, 0x30b7), (0xff7d, 0xff7d, 0x30b9),
   (0xff7e, 0xff7e, 0x30bb), (0xff7f, 0xff7f, 0x30bd), (0xff80, 0xff80, 0x30bf),
   (0xff81, 0xff81, 0x30c1), (0xff82, 0xff82, 0x30c4), (0xff83, 0xff83, 0x30c6),
   (0xff84, 0xff84, 0x30c8), (0xff85, 0xff8a, 0x30ca), (0xff8b, 0xff8b, 0x30d2),
   (0xff8c, 0xff8c, 0x30d5), (0xff8d, 0xff8d, 0x30d8), (0xff8e, 0xff8e, 0x30db),
   (0xff8f, 0xff93, 0x30de), (0xff94, 0xff94, 0x30e4), (0xff95, 0xff95, 0x30e6),
   (0xff96, 0xff9b, 0x30e8), (0xff9c, 0xff9c, 0x30ef), (0xff9d, 0xff9d, 0x30f3),
   (0xff9e, 0xff9f, 0x3099), (0xffa0, 0xffa0, 0x1160), (0xffa1, 0xffa2, 0x1100),
   (0xffa3, 0xffa3, 0x11aa), (0xffa4, 0xffa4, 0x1102), (0xffa5, 0xffa6, 0x11ac),
   (0xffa7, 0xffa9, 0x1103), (0xffaa, 0xffaf, 0x11b0), (0xffb0, 0xffb0, 0x111a),
   (0xffb1, 0xffb3, 0x1106), (0xffb4, 0xffb4, 0x1121), (0xffb5, 0xffbe, 0x1109),
   (0xffc2, 0xffc7, 0x1161), (0xffca, 0xffcf, 0x1167), (0xffd2, 0xffd7, 0x116d),
   (0xffda, 0xffdc, 0x1173), (0x10781, 0x10782, 0x2d0), (0x10783, 0x10783, 0xe6),
   (0x10784, 0x10784, 0x299), (0x10785, 0x10785, 0x253), (0x10787, 0x10787, 0x2a3),
   (0x10788, 0x10788, 0xab66), (0x10789, 0x10789, 0x2a5), (0x1078a, 0x1078a, 0x2a4),
   (0x1078b, 0x1078c, 0x256), (0x1078d, 0x1078d, 0x1d91), (0x1078e, 0x1078e, 0x258),
   (0x1078f, 0x1078f, 0x25e), (0x10790, 0x10790, 0x2a9), (0x10791, 0x10791, 0x264),
   (0x10792, 0x10792, 0x262), (0x10793, 0x10793, 0x260), (0x10794, 0x10794, 0x29b),
   (0x10795, 0x10795, 0x127), (0x10796, 0x10796, 0x29c), (0x10797, 0x10797, 0x267),
   (0x10798, 0x10798, 0x284), (0x10799, 0x1079a, 0x2aa), (0x1079b, 0x1079b, 0x26c),
   (0x1079c, 0x1079c, 0x1df04), (0x1079d, 0x1079d, 0xa78e), (0x1079e, 0x1079e, 0x26e),
   (0x1079f, 0x1079f, 0x1df05), (0x107a0, 0x107a0, 0x28e), (0x107a1, 0x107a1, 0x1df06),
   (0x107a2, 0x107a2, 0xf8), (0x107a3, 0x107a4, 0x276), (0x107a5, 0x107a5, 0x71),
   (0x107a6, 0x107a6, 0x27a), (0x107a7, 0x107a7, 0x1df08), (0x107a8, 0x107a9, 0x27d),
   (0x107aa, 0x107aa, 0x280), (0x107ab, 0x107ab, 0x2a8), (0x107ac, 0x107ac, 0x2a6),
   (0x107ad, 0x107ad, 0xab67), (0x107ae, 0x107ae, 0x2a7), (0x107af, 0x107af, 0x288),
   (0x107b0, 0x107b0, 0x2c71), (0x107b2, 0x107b2, 0x28f), (0x107b3, 0x107b4, 0x2a1),
   (0x107b5, 0x107b5, 0x298), (0x107b6, 0x107b8, 0x1c0), (0x107b9, 0x107b9, 0x1df0a),
   (0x107ba, 0x107ba, 0x1df1e), (0x1d400, 0x1d419, 0x41), (0x1d41a, 0x1d433, 0x61),
   (0x1d434, 0x1d44d, 0x41), (0x1d44e, 0x1d454, 0x61), (0x1d456, 0x1d467, 0x69),
   (0x1d468, 0x1d481, 0x41), (0x1d482, 0x1d49b, 0x61), (0x1d49c, 0x1d49c, 0x41),
   (0x1d49e, 0x1d49f, 0x43), (0x1d4a2, 0x1d4a2, 0x47), (0x1d4a5, 0x1d4a6, 0x4a),
   (0x1d4a9, 0x1d4ac, 0x4e), (0x1d4ae, 0x1d4b5, 0x53), (0x1d4b6, 0x1d4b9, 0x61),
   (0x1d4bb, 0x1d4bb, 0x66), (0x1d4bd, 0x1d4c3, 0x68), (0x1d4c5, 0x1d4cf, 0x70),
   (0x1d4d0, 0x1d4e9, 0x41), (0x1d4ea, 0x1d503, 0x61), (0x1d504, 0x1d505, 0x41),
   (0x1d507, 0x1d50a, 0x44), (0x1d50d, 0x1d514, 0x4a), (0x1d516, 0x1d51c, 0x53),
   (0x1d51e, 0x1d537, 0x61), (0x1d538, 0x1d539, 0x41), (0x1d53b, 0x1d53e, 0x44),
   (0x1d540, 0x1d544, 0x49), (0x1d546, 0x1d546, 0x4f), (0x1d54a, 0x1d550, 0x53),
   (0x1d552, 0x1d56b, 0x61), (0x1d56c, 0x1d585, 0x41), (0x1d586, 0x1d59f, 0x61),
   (0x1d5a0, 0x1d5b9, 0x41), (0x1d5ba, 0x1d5d3, 0x61), (0x1d5d4, 0x1d5ed, 0x41),
   (0x1d5ee, 0x1d607, 0x61), (0x1d608, 0x1d621, 0x41), (0x1d622, 0x1d63b, 0x61),
   (0x1d63c, 0x1d655, 0x41), (0x1d656, 0x1d66f, 0x61), (0x1d670, 0x1d689, 0x41),
   (0x1d68a, 0x1d6a3, 0x61), (0x1d6a4, 0x1d6a4, 0x131), (0x1d6a5, 0x1d6a5, 0x237),
   (0x1d6a8, 0x1d6b8, 0x391), (0x1d6b9, 0x1d6b9, 0x398), (0x1d6ba, 0x1d6c0, 0x3a3),
   (0x1d6c2, 0x1d6da, 0x3b1), (0x1d6dc, 0x1d6dc, 0x3b5), (0x1d6dd, 0x1d6dd, 0x3b8),
   (0x1d6de, 0x1d6de, 0x3ba), (0x1d6df, 0x1d6df, 0x3c6), (0x1d6e0, 0x1d6e0, 0x3c1),
   (0x1d6e1, 0x1d6e1, 0x3c0), (0x1d6e2, 0x1d6f2, 0x391), (0x1d6f3, 0x1d6f3, 0x398),
   (0x1d6f4, 0x1d6fa, 0x3a3), (0x1d6fc, 0x1d714, 0x3b1), (0x1d716, 0x1d716, 0x3b5),
   (0x1d717, 0x1d717, 0x3b8), (0x1d718, 0x1d718, 0x3ba), (0x1d719, 0x1d719, 0x3c6),
   (0x1d71a, 0x1d71a, 0x3c1), (0x1d71b, 0x1d71b, 0x3c0), (0x1d71c, 0x1d72c, 0x391),
   (0x1d72d, 0x1d72d, 0x398), (0x1d72e, 0x1d734, 0x3a3), (0x1d736, 0x1d74e, 0x3b1),
   (0x1d750, 0x1d750, 0x3b5), (0x1d751, 0x1d751, 0x3b8), (0x1d752, 0x1d752, 0x3ba),
   (0x1d753, 0x1d753, 0x3c6), (0x1d754, 0x1d754, 0x3c1), (0x1d755, 0x1d755, 0x3c0),
   (0x1d756, 0x1d766, 0x391), (0x1d767, 0x1d767, 0x398), (0x1d768, 0x1d76e, 0x3a3),
   (0x1d770, 0x1d788, 0x3b1), (0x1d78a, 0x1d78a, 0x3b5), (0x1d78b, 0x1d78b, 0x3b8),
   (0x1d78c, 0x1d78c, 0x3ba), (0x1d78d, 0x1d78d, 0x3c6), (0x1d78e, 0x1d78e, 0x3c1),
   (0x1d78f, 0x1d78f, 0x3c0), (0x1d790, 0x1d7a0, 0x391), (0x1d7a1, 0x1d7a1, 0x398),
   (0x1d7a2, 0x1d7a8, 0x3a3), (0x1d7aa, 0x1d7c2, 0x3b1), (0x1d7c4, 0x1d7c4, 0x3b5),
   (0x1d7c5, 0x1d7c5, 0x3b8), (0x1d7c6, 0x1d7c6, 0x3ba), (0x1d7c7, 0x1d7c7, 0x3c6),
   (0x1d7c8, 0x1d7c8, 0x3c1), (0x1d7c9, 0x1d7c9, 0x3c0), (0x1d7ca, 0x1d7cb, 0x3dc),
   (0x1d7ce, 0x1d7d7, 0x30), (0x1d7d8, 0x1d7e1, 0x30), (0x1d7e2, 0x1d7eb, 0x30),
   (0x1d7ec, 0x1d7f5, 0x30), (0x1d7f6, 0x1d7ff, 0x30), (0x1fbf0, 0x1fbf9, 0x30)]

/-- Characters whose plain form has several characters. -/
def expandedForms : List (Nat × List Nat) :=
  [(0x132, [0x49, 0x4a]), (0x133, [0x69, 0x6a]), (0x13f, [0x4c, 0xb7]), (0x140, [0x6c, 0xb7]),
   (0x149, [0x2bc, 0x6e]), (0x1c4, [0x44, 0x17d]), (0x1c5, [0x44, 0x17e]),
   (0x1c6, [0x64, 0x17e]), (0x1c7, [0x4c, 0x4a]), (0x1c8, [0x4c, 0x6a]), (0x1c9, [0x6c, 0x6a]),
   (0x1ca, [0x4e, 0x4a]), (0x1cb, [0x4e, 0x6a]), (0x1cc, [0x6e, 0x6a]), (0x1f1, [0x44, 0x5a]),
   (0x1f2, [0x44, 0x7a]), (0x1f3, [0x64, 0x7a]), (0x344, [0x308, 0x301]),
   (0x587, [0x565, 0x582]), (0x675, [0x627, 0x674]), (0x676, [0x648, 0x674]),
   (0x677, [0x6c7, 0x674]), (0x678, [0x64a, 0x674]), (0x958, [0x915, 0x93c]),
   (0x959, [0x916, 0x93c]), (0x95a, [0x917, 0x93c]), (0x95b, [0x91c, 0x93c]),
   (0x95c, [0x921, 0x93c]), (0x95d, [0x922, 0x93c]), (0x95e, [0x92b, 0x93c]),
   (0x95f, [0x92f, 0x93c]), (0x9dc, [0x9a1, 0x9bc]), (0x9dd, [0x9a2, 0x9bc]),
   (0x9df, [0x9af, 0x9bc]), (0xa33, [0xa32, 0xa3c]), (0xa36, [0xa38, 0xa3c]),
   (0xa59, [0xa16, 0xa3c]), (0xa5a, [0xa17, 0xa3c]), (0xa5b, [0xa1c, 0xa3c]),
   (0xa5e, [0xa2b, 0xa3c]), (0xb5c, [0xb21, 0xb3c]), (0xb5d, [0xb22, 0xb3c]),
   (0xe33, [0xe4d, 0xe32]), (0xeb3, [0xecd, 0xeb2]), (0xedc, [0xeab, 0xe99]),
   (0xedd, [0xeab, 0xea1]), (0xf43, [0xf42, 0xfb7]), (0xf4d, [0xf4c, 0xfb7]),
   (0xf52, [0xf51, 0xfb7]), (0xf57, [0xf56, 0xfb7]), (0xf5c, [0xf5b, 0xfb7]),
   (0xf69, [0xf40, 0xfb5]), (0xf73, [0xf71, 0xf72]), (0xf75, [0xf71, 0xf74]),
   (0xf76, [0xfb2, 0xf80]), (0xf77, [0xfb2, 0xf71, 0xf80]), (0xf78, [0xfb3, 0xf80]),
   (0xf79, [0xfb3, 0xf71, 0xf80]), (0xf81, [0xf71, 0xf80]), (0xf93, [0xf92, 0xfb7]),
   (0xf9d, [0xf9c, 0xfb7]), (0xfa2, [0xfa1, 0xfb7]), (0xfa7, [0xfa6, 0xfb7]),
   (0xfac, [0xfab, 0xfb7]), (0xfb9, [0xf90, 0xfb5]), (0x1e9a, [0x61, 0x2be]),
   (0x2161, [0x49, 0x49]), (0x2162, [0x49, 0x49, 0x49]), (0x2163, [0x49, 0x56]),
   (0x2165, [0x56, 0x49]), (0x2166, [0x56, 0x49, 0x49]), (0x2167, [0x56, 0x49, 0x49, 0x49]),
   (0x2168, [0x49, 0x58]), (0x216a, [0x58, 0x49]), (0x216b, [0x58, 0x49, 0x49]),
   (0x2171, [0x69, 0x69]), (0x2172, [0x69, 0x69, 0x69]), (0x2173, [0x69, 0x76]),
   (0x2175, [0x76, 0x69]), (0x2176, [0x76, 0x69, 0x69]), (0x2177, [0x76, 0x69, 0x69, 0x69]),
   (0x2178, [0x69, 0x78]), (0x217a, [0x78, 0x69]), (0x217b, [0x78, 0x69, 0x69]),
   (0x309f, [0x3088, 0x308a]), (0x30ff, [0x30b3, 0x30c8]), (0xfb00, [0x66, 0x66]),
   (0xfb01, [0x66, 0x69]), (0xfb02, [0x66, 0x6c]), (0xfb03, [0x66, 0x66, 0x69]),
   (0xfb04, [0x66, 0x66, 0x6c]), (0xfb05, [0x73, 0x74]), (0xfb06, [0x73, 0x74]),
   (0xfb13, [0x574, 0x576]), (0xfb14, [0x574, 0x565]), (0xfb15, [0x574, 0x56b]),
   (0xfb16, [0x57e, 0x576]), (0xfb17, [0x574, 0x56d]), (0xfb1d, [0x5d9, 0x5b4]),
   (0xfb1f, [0x5f2, 0x5b7]), (0xfb2a, [0x5e9, 0x5c1]), (0xfb2b, [0x5e9, 0x5c2]),
   (0xfb2c, [0x5e9, 0x5bc, 0x5c1]), (0xfb2d, [0x5e9, 0x5bc, 0x5c2]), (0xfb2e, [0x5d0, 0x5b7]),
   (0xfb2f, [0x5d0, 0x5b8]), (0xfb30, [0x5d0, 0x5bc]), (0xfb31, [0x5d1, 0x5bc]),
   (0xfb32, [0x5d2, 0x5bc]), (0xfb33, [0x5d3, 0x5bc]), (0xfb34, [0x5d4, 0x5bc]),
   (0xfb35, [0x5d5, 0x5bc]), (0xfb36, [0x5d6, 0x5bc]), (0xfb38, [0x5d8, 0x5bc]),
   (0xfb39, [0x5d9, 0x5bc]), (0xfb3a, [0x5da, 0x5bc]), (0xfb3b, [0x5db, 0x5bc]),
   (0xfb3c, [0x5dc, 0x5bc]), (0xfb3e, [0x5de, 0x5bc]), (0xfb40, [0x5e0, 0x5bc]),
   (0xfb41, [0x5e1, 0x5bc]), (0xfb43, [0x5e3, 0x5bc]), (0xfb44, [0x5e4, 0x5bc]),
   (0xfb46, [0x5e6, 0x5bc]), (0xfb47, [0x5e7, 0x5bc]), (0xfb48, [0x5e8, 0x5bc]),
   (0xfb49, [0x5e9, 0x5bc]), (0xfb4a, [0x5ea, 0x5bc]), (0xfb4b, [0x5d5, 0x5b9]),
   (0xfb4c, [0x5d1, 0x5bf]), (0xfb4d, [0x5db, 0x5bf]), (0xfb4e, [0x5e4, 0x5bf]),
   (0xfb4f, [0x5d0, 0x5dc])]

/-- The plain form of a character. -/
def foldChar (c : Char) : List Char :=
  if c.toNat < 0x80 then [c]
  else
    match foldedRuns.find? fun run => decide (run.1 ≤ c.toNat) && decide (c.toNat ≤ run.2.1) with
    | some (first, _, plain) => [Char.ofNat (plain + (c.toNat - first))]
    | none =>
        match expandedForms.find? fun form => form.1 == c.toNat with
        | some (_, plain) => plain.map Char.ofNat
        | none => [c]

/-- The plain form of a name. -/
def fold (name : List Char) : List Char :=
  name.flatMap foldChar

end QuantFamily.Text
