import CssVendor.Grammar.DataType

/-!
# Colours

What can be written for a colour: a hash with digits, a name, or a function of
numbers, percentages and angles.
-/

namespace CssVendor.Grammar

open Syntax

/-! ## Names -/

/-- The names of colours. -/
def colorNames : List String :=
  ["currentcolor", "transparent", "aliceblue", "antiquewhite", "aqua",
   "aquamarine", "azure", "beige", "bisque", "black", "blanchedalmond",
   "blue", "blueviolet", "brown", "burlywood", "cadetblue", "chartreuse",
   "chocolate", "coral", "cornflowerblue", "cornsilk", "crimson", "cyan",
   "darkblue", "darkcyan", "darkgoldenrod", "darkgray", "darkgreen",
   "darkgrey", "darkkhaki", "darkmagenta", "darkolivegreen", "darkorange",
   "darkorchid", "darkred", "darksalmon", "darkseagreen", "darkslateblue",
   "darkslategray", "darkslategrey", "darkturquoise", "darkviolet",
   "deeppink", "deepskyblue", "dimgray", "dimgrey", "dodgerblue",
   "firebrick", "floralwhite", "forestgreen", "fuchsia", "gainsboro",
   "ghostwhite", "gold", "goldenrod", "gray", "green", "greenyellow", "grey",
   "honeydew", "hotpink", "indianred", "indigo", "ivory", "khaki",
   "lavender", "lavenderblush", "lawngreen", "lemonchiffon", "lightblue",
   "lightcoral", "lightcyan", "lightgoldenrodyellow", "lightgray",
   "lightgreen", "lightgrey", "lightpink", "lightsalmon", "lightseagreen",
   "lightskyblue", "lightslategray", "lightslategrey", "lightsteelblue",
   "lightyellow", "lime", "limegreen", "linen", "magenta", "maroon",
   "mediumaquamarine", "mediumblue", "mediumorchid", "mediumpurple",
   "mediumseagreen", "mediumslateblue", "mediumspringgreen",
   "mediumturquoise", "mediumvioletred", "midnightblue", "mintcream",
   "mistyrose", "moccasin", "navajowhite", "navy", "oldlace", "olive",
   "olivedrab", "orange", "orangered", "orchid", "palegoldenrod",
   "palegreen", "paleturquoise", "palevioletred", "papayawhip", "peachpuff",
   "peru", "pink", "plum", "powderblue", "purple", "rebeccapurple", "red",
   "rosybrown", "royalblue", "saddlebrown", "salmon", "sandybrown",
   "seagreen", "seashell", "sienna", "silver", "skyblue", "slateblue",
   "slategray", "slategrey", "snow", "springgreen", "steelblue", "tan",
   "teal", "thistle", "tomato", "turquoise", "violet", "wheat", "white",
   "whitesmoke", "yellow", "yellowgreen"]

/-- The names of colours that the system of the reader sets. -/
def systemColors : List String :=
  ["accentcolor", "accentcolortext", "activetext", "buttonborder",
   "buttonface", "buttontext", "canvas", "canvastext", "field", "fieldtext",
   "graytext", "highlight", "highlighttext", "linktext", "mark", "marktext",
   "selecteditem", "selecteditemtext", "visitedtext", "activeborder",
   "activecaption", "appworkspace", "background", "buttonhighlight",
   "buttonshadow", "captiontext", "inactiveborder", "inactivecaption",
   "inactivecaptiontext", "infobackground", "infotext", "menu", "menutext",
   "scrollbar", "threeddarkshadow", "threedface", "threedhighlight",
   "threedlightshadow", "threedshadow", "window", "windowframe",
   "windowtext"]

/-- The colour spaces of `color()`. -/
def colorSpaces : List String :=
  ["srgb", "srgb-linear", "display-p3", "a98-rgb", "prophoto-rgb", "rec2020",
   "xyz", "xyz-d50", "xyz-d65"]

/-- Whether the name of a hash writes a colour. -/
def isHexColor (name : List Char) : Bool :=
  [3, 4, 6, 8].contains name.length && name.all isHexDigit

/-! ## Functions -/

/-- What a component of a colour can be. -/
inductive ColorChannel
  | number
  | percentage
  /-- A number or a percentage. -/
  | share
  /-- An angle, or a number of degrees. -/
  | hue
  deriving DecidableEq, Repr, Inhabited

namespace ColorChannel

/-- Whether a component has a value for a channel. -/
def hasValue (channel : ColorChannel) (c : Component) : Bool :=
  match channel with
  | .number => isNumber c
  | .percentage => DataType.percentage.admits c
  | .share => isNumber c || DataType.percentage.admits c
  | .hue => isNumber c || DataType.angle.admits c

/-- Whether a component may stand for a channel, which may be missing. -/
def admits (channel : ColorChannel) (c : Component) : Bool :=
  channel.hasValue c ||
    match c with
    | .token ⟨.ident name, _⟩ => Text.isKeyword name "none"
    | _ => false

end ColorChannel

/-- Whether components are, one for each, values of some channels. -/
def areChannels (channels : List ColorChannel) (cs : List Component) : Bool :=
  cs.length == channels.length &&
    (channels.zip cs).all fun (channel, c) => channel.admits c

/-- Whether components are channels, with or without an opacity behind a
stroke. -/
def areModernChannels (channels : List ColorChannel) (cs : List Component) :
    Bool :=
  match cs.drop channels.length with
  | [] => areChannels channels cs
  | stroke :: opacity =>
      stroke.isToken (.delim '/') &&
        areChannels channels (cs.take channels.length) &&
        areChannels [.share] opacity

/-- Whether components are channels with commas in between, of which the last
may be an opacity. -/
def areLegacyChannels (channels : List ColorChannel) (cs : List Component) :
    Bool :=
  match splitCommas (plainParts cs) with
  | [] => false
  | segments =>
      let channels := channels ++ [.share]
      (segments.length + 1 == channels.length ||
        segments.length == channels.length) &&
      (channels.zip segments).all fun (channel, segment) =>
        isOne (fun p => channel.hasValue p.component) segment

/-- Whether a function with some arguments is a colour. -/
def isColorFunction (name : String) (content : List Component) : Bool :=
  let cs := significant content
  match name with
  | "rgb" | "rgba" =>
      areModernChannels [.share, .share, .share] cs ||
        areLegacyChannels [.number, .number, .number] cs ||
        areLegacyChannels [.percentage, .percentage, .percentage] cs
  | "hsl" | "hsla" =>
      areModernChannels [.hue, .percentage, .percentage] cs ||
        areLegacyChannels [.hue, .percentage, .percentage] cs
  | "hwb" => areModernChannels [.hue, .percentage, .percentage] cs
  | "lab" | "oklab" => areModernChannels [.share, .share, .share] cs
  | "lch" | "oklch" => areModernChannels [.share, .share, .hue] cs
  | "color" =>
      match cs with
      | .token ⟨.ident space, _⟩ :: cs =>
          Text.isOneOf space colorSpaces &&
            areModernChannels [.share, .share, .share] cs
      | _ => false
  | _ => false

/-- Whether a component is a colour. -/
def isColor : Component → Bool
  | .token ⟨.hash name _, _⟩ => isHexColor name
  | .token ⟨.ident name, _⟩ =>
      Text.isOneOf name colorNames || Text.isOneOf name systemColors
  | .block ⟨.function name, _⟩ content _ =>
      isColorFunction (String.ofList (Text.lower name)) content
  | _ => false

end CssVendor.Grammar
