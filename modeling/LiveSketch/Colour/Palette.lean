import LiveSketch.Colour.Basic

/-!
# The named colours

Every colour name that sketches know, in palette order. Names are lower case and unique.
-/
namespace LiveSketch.Palette

/-- The names and their colours, in palette order. -/
def entries : List (String × Colour) := [
  ("aliceblue", .solid 0xf0 0xf8 0xff),
  ("antiquewhite", .solid 0xfa 0xeb 0xd7),
  ("aqua", .solid 0x00 0xff 0xff),
  ("aquamarine", .solid 0x7f 0xff 0xd4),
  ("azure", .solid 0xf0 0xff 0xff),
  ("beige", .solid 0xf5 0xf5 0xdc),
  ("bisque", .solid 0xff 0xe4 0xc4),
  ("black", .solid 0x00 0x00 0x00),
  ("blanchedalmond", .solid 0xff 0xeb 0xcd),
  ("blue", .solid 0x00 0x00 0xff),
  ("blueviolet", .solid 0x8a 0x2b 0xe2),
  ("brown", .solid 0xa5 0x2a 0x2a),
  ("burlywood", .solid 0xde 0xb8 0x87),
  ("cadetblue", .solid 0x5f 0x9e 0xa0),
  ("chartreuse", .solid 0x7f 0xff 0x00),
  ("chocolate", .solid 0xd2 0x69 0x1e),
  ("coral", .solid 0xff 0x7f 0x50),
  ("cornflowerblue", .solid 0x64 0x95 0xed),
  ("cornsilk", .solid 0xff 0xf8 0xdc),
  ("crimson", .solid 0xdc 0x14 0x3c),
  ("cyan", .solid 0x00 0xff 0xff),
  ("darkblue", .solid 0x00 0x00 0x8b),
  ("darkcyan", .solid 0x00 0x8b 0x8b),
  ("darkgoldenrod", .solid 0xb8 0x86 0x0b),
  ("darkgray", .solid 0xa9 0xa9 0xa9),
  ("darkgrey", .solid 0xa9 0xa9 0xa9),
  ("darkgreen", .solid 0x00 0x64 0x00),
  ("darkkhaki", .solid 0xbd 0xb7 0x6b),
  ("darkmagenta", .solid 0x8b 0x00 0x8b),
  ("darkolivegreen", .solid 0x55 0x6b 0x2f),
  ("darkorange", .solid 0xff 0x8c 0x00),
  ("darkorchid", .solid 0x99 0x32 0xcc),
  ("darkred", .solid 0x8b 0x00 0x00),
  ("darksalmon", .solid 0xe9 0x96 0x7a),
  ("darkseagreen", .solid 0x8f 0xbc 0x8f),
  ("darkslateblue", .solid 0x48 0x3d 0x8b),
  ("darkslategray", .solid 0x2f 0x4f 0x4f),
  ("darkslategrey", .solid 0x2f 0x4f 0x4f),
  ("darkturquoise", .solid 0x00 0xce 0xd1),
  ("darkviolet", .solid 0x94 0x00 0xd3),
  ("deeppink", .solid 0xff 0x14 0x93),
  ("deepskyblue", .solid 0x00 0xbf 0xff),
  ("dimgray", .solid 0x69 0x69 0x69),
  ("dimgrey", .solid 0x69 0x69 0x69),
  ("dodgerblue", .solid 0x1e 0x90 0xff),
  ("firebrick", .solid 0xb2 0x22 0x22),
  ("floralwhite", .solid 0xff 0xfa 0xf0),
  ("forestgreen", .solid 0x22 0x8b 0x22),
  ("fuchsia", .solid 0xff 0x00 0xff),
  ("gainsboro", .solid 0xdc 0xdc 0xdc),
  ("ghostwhite", .solid 0xf8 0xf8 0xff),
  ("gold", .solid 0xff 0xd7 0x00),
  ("goldenrod", .solid 0xda 0xa5 0x20),
  ("gray", .solid 0x80 0x80 0x80),
  ("grey", .solid 0x80 0x80 0x80),
  ("green", .solid 0x00 0x80 0x00),
  ("greenyellow", .solid 0xad 0xff 0x2f),
  ("honeydew", .solid 0xf0 0xff 0xf0),
  ("hotpink", .solid 0xff 0x69 0xb4),
  ("indianred", .solid 0xcd 0x5c 0x5c),
  ("indigo", .solid 0x4b 0x00 0x82),
  ("ivory", .solid 0xff 0xff 0xf0),
  ("khaki", .solid 0xf0 0xe6 0x8c),
  ("lavender", .solid 0xe6 0xe6 0xfa),
  ("lavenderblush", .solid 0xff 0xf0 0xf5),
  ("lawngreen", .solid 0x7c 0xfc 0x00),
  ("lemonchiffon", .solid 0xff 0xfa 0xcd),
  ("lightblue", .solid 0xad 0xd8 0xe6),
  ("lightcoral", .solid 0xf0 0x80 0x80),
  ("lightcyan", .solid 0xe0 0xff 0xff),
  ("lightgoldenrodyellow", .solid 0xfa 0xfa 0xd2),
  ("lightgrey", .solid 0xd3 0xd3 0xd3),
  ("lightgray", .solid 0xd3 0xd3 0xd3),
  ("lightgreen", .solid 0x90 0xee 0x90),
  ("lightpink", .solid 0xff 0xb6 0xc1),
  ("lightsalmon", .solid 0xff 0xa0 0x7a),
  ("lightseagreen", .solid 0x20 0xb2 0xaa),
  ("lightskyblue", .solid 0x87 0xce 0xfa),
  ("lightslategray", .solid 0x77 0x88 0x99),
  ("lightslategrey", .solid 0x77 0x88 0x99),
  ("lightsteelblue", .solid 0xb0 0xc4 0xde),
  ("lightyellow", .solid 0xff 0xff 0xe0),
  ("lime", .solid 0x00 0xff 0x00),
  ("limegreen", .solid 0x32 0xcd 0x32),
  ("linen", .solid 0xfa 0xf0 0xe6),
  ("magenta", .solid 0xff 0x00 0xff),
  ("maroon", .solid 0x80 0x00 0x00),
  ("mediumaquamarine", .solid 0x66 0xcd 0xaa),
  ("mediumblue", .solid 0x00 0x00 0xcd),
  ("mediumorchid", .solid 0xba 0x55 0xd3),
  ("mediumpurple", .solid 0x93 0x70 0xd8),
  ("mediumseagreen", .solid 0x3c 0xb3 0x71),
  ("mediumslateblue", .solid 0x7b 0x68 0xee),
  ("mediumspringgreen", .solid 0x00 0xfa 0x9a),
  ("mediumturquoise", .solid 0x48 0xd1 0xcc),
  ("mediumvioletred", .solid 0xc7 0x15 0x85),
  ("midnightblue", .solid 0x19 0x19 0x70),
  ("mintcream", .solid 0xf5 0xff 0xfa),
  ("mistyrose", .solid 0xff 0xe4 0xe1),
  ("moccasin", .solid 0xff 0xe4 0xb5),
  ("navajowhite", .solid 0xff 0xde 0xad),
  ("navy", .solid 0x00 0x00 0x80),
  ("oldlace", .solid 0xfd 0xf5 0xe6),
  ("olive", .solid 0x80 0x80 0x00),
  ("olivedrab", .solid 0x6b 0x8e 0x23),
  ("orange", .solid 0xff 0xa5 0x00),
  ("orangered", .solid 0xff 0x45 0x00),
  ("orchid", .solid 0xda 0x70 0xd6),
  ("palegoldenrod", .solid 0xee 0xe8 0xaa),
  ("palegreen", .solid 0x98 0xfb 0x98),
  ("paleturquoise", .solid 0xaf 0xee 0xee),
  ("palevioletred", .solid 0xd8 0x70 0x93),
  ("papayawhip", .solid 0xff 0xef 0xd5),
  ("peachpuff", .solid 0xff 0xda 0xb9),
  ("peru", .solid 0xcd 0x85 0x3f),
  ("pink", .solid 0xff 0xc0 0xcb),
  ("plum", .solid 0xdd 0xa0 0xdd),
  ("powderblue", .solid 0xb0 0xe0 0xe6),
  ("purple", .solid 0x80 0x00 0x80),
  ("red", .solid 0xff 0x00 0x00),
  ("rosybrown", .solid 0xbc 0x8f 0x8f),
  ("royalblue", .solid 0x41 0x69 0xe1),
  ("saddlebrown", .solid 0x8b 0x45 0x13),
  ("salmon", .solid 0xfa 0x80 0x72),
  ("sandybrown", .solid 0xf4 0xa4 0x60),
  ("seagreen", .solid 0x2e 0x8b 0x57),
  ("seashell", .solid 0xff 0xf5 0xee),
  ("sienna", .solid 0xa0 0x52 0x2d),
  ("silver", .solid 0xc0 0xc0 0xc0),
  ("skyblue", .solid 0x87 0xce 0xeb),
  ("slateblue", .solid 0x6a 0x5a 0xcd),
  ("slategray", .solid 0x70 0x80 0x90),
  ("slategrey", .solid 0x70 0x80 0x90),
  ("snow", .solid 0xff 0xfa 0xfa),
  ("springgreen", .solid 0x00 0xff 0x7f),
  ("steelblue", .solid 0x46 0x82 0xb4),
  ("tan", .solid 0xd2 0xb4 0x8c),
  ("teal", .solid 0x00 0x80 0x80),
  ("thistle", .solid 0xd8 0xbf 0xd8),
  ("tomato", .solid 0xff 0x63 0x47),
  ("turquoise", .solid 0x40 0xe0 0xd0),
  ("violet", .solid 0xee 0x82 0xee),
  ("wheat", .solid 0xf5 0xde 0xb3),
  ("white", .solid 0xff 0xff 0xff),
  ("whitesmoke", .solid 0xf5 0xf5 0xf5),
  ("yellow", .solid 0xff 0xff 0x00),
  ("yellowgreen", .solid 0x9a 0xcd 0x32)]

/-- The names, in palette order. -/
def names : List String := entries.map (·.1)

/-- The colour of exactly this name. -/
def find? (name : String) : Option Colour := entries.lookup name

/-- Whether this is the name of a colour. -/
def contains (name : String) : Bool := (find? name).isSome

end LiveSketch.Palette
