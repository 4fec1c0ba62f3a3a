import BladeStyle.Registry

/-!
# The built-in styles

The templates known without any registration, section by section: functions of time
and blade, colours, layers, transitions and the wrappers that make a style of them.  A
parameter without a default starts empty.
-/

namespace BladeStyle

namespace Builtin

/-- A bare name, written without a parameter list. -/
def bare (name : String) (category : Category) : Style :=
  (Style.ofParams name name category []).asFixedForm

/-- `Int<value>`, the usual default of a function parameter. -/
def int (value : Int) : Style :=
  Style.ofParams "Int" "Integer" .function [.ofNumber "Value" value]

/-- A composite parameter for the given categories. -/
def takes (name : String) (categories : List Category) (initial : Option Style) : Param Style :=
  .ofStyle name (CategorySet.ofList categories) initial

def functions : List Style :=
  [ int 0,
    .ofParams "Scale" "Scale" .function
      [ takes "Input" [.function] none,
        takes "Low" [.function] (int 0),
        takes "High" [.function] (int 32768) ],
    .ofParams "Sum" "Sum" .function [(takes "Value" [.function] none).asVariadic],
    .ofParams "Bump" "Bump" .function
      [ takes "Position" [.function] (int 16384),
        takes "Width" [.function] (int 16384) ],
    .ofParams "SwingSpeed" "Swing Speed" .function [.ofNumber "Max" 600],
    .ofParams "IntArg" "Argument Integer" .function
      [ takes "Argument" [.argument] none,
        .ofNumber "Default" 0 ],
    bare "BatteryLevel" .function ]

def timeFunctions : List Style :=
  [ .ofParams "BendTimePowX" "Exponential Time Bend" .timeFunction
      [ takes "Time (ms)" [.function, .timeFunction] (int 1000),
        takes "Power" [.function] (int 65536) ],
    .ofParams "BendTimePowInvX" "Inverse Exponential Time Bend" .timeFunction
      [ takes "Time (ms)" [.function, .timeFunction] (int 1000),
        (takes "Power" [.function] (int 65536)).referringTo 1 ],
    .ofParams "ReverseTimeX" "Reverse Time" .timeFunction
      [takes "Time (ms)" [.function, .timeFunction] (int 1000)],
    .ofParams "BendTimePow" "Time Bend" .timeFunction
      [ .ofNumber "Millis" 1000,
        .ofNumber "Power" 65536 ],
    .ofParams "BendTimePowInv" "Inverse Time Bend" .timeFunction
      [ .ofNumber "Millis" 1000,
        (Param.ofNumber "Power" 65536).referringTo 1 ],
    .ofParams "ReverseTime" "Reverse Time" .timeFunction [.ofNumber "Millis" 1000] ]

def colors : List Style :=
  [ .ofParams "Rgb" "RGB Color" .color
      [ .ofNumber "Red" 0,
        .ofNumber "Green" 0,
        .ofNumber "Blue" 0 ],
    .ofParams "Mix" "Mix" .color
      [ takes "Position" [.function] none,
        (takes "Color" [.color] none).asVariadic ],
    .ofParams "Gradient" "Gradient" .color [(takes "Color" [.color] none).asVariadic],
    .ofParams "AudioFlicker" "Audio Flicker" .color
      [ takes "Color A" [.color] none,
        takes "Color B" [.color] none ],
    .ofParams "RandomFlicker" "Random Flicker" .color
      [ takes "Color A" [.color] none,
        takes "Color B" [.color] none ],
    .ofParams "Pulsing" "Pulsing" .color
      [ takes "Color A" [.color] none,
        takes "Color B" [.color] none,
        .ofNumber "Pulse Millis" 1200 ],
    .ofParams "Stripes" "Stripes" .color
      [ .ofNumber "Width" 1000,
        .ofNumber "Speed" 1000,
        (takes "Color" [.color] none).asVariadic ],
    .ofParams "Sequence" "Sequence" .color
      [ takes "On Color" [.color] none,
        takes "Off Color" [.color] (bare "Black" .color),
        .ofNumber "Millis per Bit" 100,
        .ofNumber "Bits" 16,
        (Param.ofBits "Pattern" 0).asVariadic ],
    .ofParams "RgbArg" "Argument Color" .color
      [ takes "Argument" [.argument] none,
        takes "Default" [.color] none ],
    .ofParams "Layers" "Layers" .color
      [ takes "Base" [.color] none,
        (takes "Layer" [.layer] none).asVariadic ] ]

def fixedColors : List Style :=
  ["Red", "Green", "Blue", "White", "Black", "Yellow", "Cyan", "Magenta", "Orange",
    "DeepSkyBlue"].map (bare · .color)

def references : List Style :=
  [ .ofParams "style_pov" "POV" .builtin [],
    .ofParams "style_charging" "Charging" .builtin [] ]

def arguments : List Style :=
  ["BASE_COLOR_ARG", "ALT_COLOR_ARG", "BLAST_COLOR_ARG", "CLASH_COLOR_ARG",
    "LOCKUP_COLOR_ARG", "IGNITION_TIME_ARG", "RETRACTION_TIME_ARG",
    "STYLE_OPTION_ARG"].map (bare · .argument)

def lockupTypes : List Style :=
  ["LOCKUP_NORMAL", "LOCKUP_DRAG", "LOCKUP_MELT",
    "LOCKUP_LIGHTNING_BLOCK"].map (bare · .lockupType)

def effects : List Style :=
  ["EFFECT_CLASH", "EFFECT_BLAST", "EFFECT_STAB", "EFFECT_FORCE", "EFFECT_IGNITION",
    "EFFECT_RETRACTION", "EFFECT_BOOT"].map (bare · .effect)

def transitions : List Style :=
  [ .ofParams "TrFade" "Fade" .transition [.ofNumber "Millis" 300],
    .ofParams "TrWipe" "Wipe" .transition [.ofNumber "Millis" 300],
    .ofParams "TrWipeIn" "Wipe In" .transition [.ofNumber "Millis" 300],
    .ofParams "TrDelay" "Delay" .transition [.ofNumber "Millis" 300],
    .ofParams "TrFadeX" "Fade (Function)" .transition
      [takes "Millis" [.function, .timeFunction] (int 300)],
    bare "TrInstant" .transition,
    .ofParams "TrConcat" "Concatenate" .transition
      [(takes "Step" [.transition, .color] none).asVariadic] ]

def layers : List Style :=
  [ .ofParams "AlphaL" "Alpha Layer" .layer
      [ takes "Color" [.color] none,
        takes "Alpha" [.function] none ],
    .ofParams "BlastL" "Blast" .layer [takes "Color" [.color] none],
    .ofParams "SimpleClashL" "Simple Clash" .layer [takes "Color" [.color] none],
    .ofParams "LockupTrL" "Lockup" .layer
      [ takes "Color" [.color] none,
        takes "Begin" [.transition] none,
        takes "End" [.transition] none,
        takes "Lockup Type" [.lockupType] none ],
    .ofParams "TransitionEffectL" "Transition Effect" .layer
      [ takes "Transition" [.transition] none,
        takes "Effect" [.effect] none ],
    .ofParams "InOutTrL" "Ignition/Retraction" .layer
      [ takes "Ignition" [.transition] none,
        takes "Retraction" [.transition] none,
        takes "Off Color" [.color] (bare "Black" .color),
        .ofBool "Allow Disable" false ] ]

def wrappers : List Style :=
  [ .ofParams "StylePtr" "Style" .wrapper [takes "Style" [.color] none],
    .ofParams "ChargingStylePtr" "Charging Style" .wrapper [takes "Style" [.color] none],
    .ofParams "StyleFirePtr" "Fire Style" .wrapper
      [ takes "Hot Color" [.color] none,
        takes "Cold Color" [.color] none ] ]

/-- The built-in templates of a section. -/
def templates : Section → List Style
  | .function => functions
  | .timeFunction => timeFunctions
  | .color => colors
  | .fixedColor => fixedColors
  | .builtin => references
  | .argument => arguments
  | .lockupType => lockupTypes
  | .effect => effects
  | .transition => transitions
  | .layer => layers
  | .wrapper => wrappers

end Builtin

/-- The registry of the built-in templates. -/
def Registry.builtin : Registry :=
  .ofList (Section.all.flatMap fun home => (Builtin.templates home).map (home, ·))

end BladeStyle
