import AlpineOnIOS.Terminal.Buffer

/-!
# Select graphic rendition

`handleSGR` of `TerminalParser.swift` walks over the parameters with an index that
`parseExtendedColor` advances too. Here the index is the list of parameters that are left.
-/

namespace AlpineOnIOS.Terminal

inductive Ground
  | foreground
  | background

/-- The parameter that introduces an extended colour. -/
def Ground.introducer : Ground → Int
  | .foreground => 38
  | .background => 48

def TerminalBuffer.setColor (buffer : TerminalBuffer) (ground : Ground) (color : TerminalColor) :
    TerminalBuffer :=
  match ground with
  | .foreground => { buffer with currentFG := color }
  | .background => { buffer with currentBG := color }

/-- The parameters that stand alone. -/
def TerminalBuffer.setRendition (buffer : TerminalBuffer) (p : Int) : TerminalBuffer :=
  if p = 0 then { buffer with currentFG := .default, currentBG := .default, currentAttrs := {} }
  else if p = 1 then { buffer with currentAttrs.bold := true }
  else if p = 4 then { buffer with currentAttrs.underline := true }
  else if p = 7 then { buffer with currentAttrs.reverse := true }
  else if p = 22 then { buffer with currentAttrs.bold := false }
  else if p = 24 then { buffer with currentAttrs.underline := false }
  else if p = 27 then { buffer with currentAttrs.reverse := false }
  else if 30 ≤ p ∧ p ≤ 37 then buffer.setColor .foreground (.indexed (p - 30))
  else if p = 39 then buffer.setColor .foreground .default
  else if 40 ≤ p ∧ p ≤ 47 then buffer.setColor .background (.indexed (p - 40))
  else if p = 49 then buffer.setColor .background .default
  else if 90 ≤ p ∧ p ≤ 97 then buffer.setColor .foreground (.indexed (p - 90 + 8))
  else if 100 ≤ p ∧ p ≤ 107 then buffer.setColor .background (.indexed (p - 100 + 8))
  else buffer

/-- `UInt8(clamping:)`. -/
def clamping (value : Int) : UInt8 := UInt8.ofNat (min value.toNat 255)

/-- The colour behind an introducer, and the parameters that are left. -/
def parseExtendedColor : List Int → Option TerminalColor × List Int
  | [] => (none, [])
  | 5 :: index :: rest => (some (.indexed (min (max index 0) 255)), rest)
  | 2 :: red :: green :: blue :: rest =>
    (some (.rgb (clamping red) (clamping green) (clamping blue)), rest)
  | _ :: rest => (none, rest)

variable (buffer : TerminalBuffer)

/-- The round of an introducer. -/
def extendedRound (rest : List Int) (ground : Ground) : TerminalBuffer × List Int :=
  let (color, left) := parseExtendedColor rest
  (color.elim buffer (buffer.setColor ground), left)

/-- One round of the loop, at the parameter `p`. -/
def sgrRound (p : Int) (rest : List Int) : TerminalBuffer × List Int :=
  if p = 38 then extendedRound buffer rest .foreground
  else if p = 48 then extendedRound buffer rest .background
  else (buffer.setRendition p, rest)

theorem sgrRound_suffix (p : Int) (rest : List Int) : (sgrRound buffer p rest).2 <:+ rest := by
  have left : (parseExtendedColor rest).2 <:+ rest := by
    unfold parseExtendedColor
    split
    · exact List.suffix_rfl
    · exact ⟨[_, _], rfl⟩
    · exact ⟨[_, _, _, _], rfl⟩
    · exact ⟨[_], rfl⟩
  unfold sgrRound extendedRound
  split_ifs
  · exact left
  · exact left
  · exact List.suffix_rfl

def handleSGR (buffer : TerminalBuffer) : List Int → TerminalBuffer
  | [] => buffer
  | p :: rest => handleSGR (sgrRound buffer p rest).1 (sgrRound buffer p rest).2
termination_by params => params.length
decreasing_by exact Nat.lt_succ_of_le (sgrRound_suffix buffer p rest).length_le

/-- A parameter with all its arguments; an extended colour of another mode has none. -/
inductive SgrItem
  | alone (p : Int) (other : p ≠ 38 ∧ p ≠ 48)
  | indexed (ground : Ground) (index : Int)
  | rgb (ground : Ground) (red green blue : Int)
  | unknown (ground : Ground) (mode : Int) (other : mode ≠ 5 ∧ mode ≠ 2)

def SgrItem.params : SgrItem → List Int
  | .alone p _ => [p]
  | .indexed ground index => [ground.introducer, 5, index]
  | .rgb ground red green blue => [ground.introducer, 2, red, green, blue]
  | .unknown ground mode _ => [ground.introducer, mode]

/-- What an item is for. -/
def SgrItem.apply : SgrItem → TerminalBuffer
  | .alone p _ => buffer.setRendition p
  | .indexed ground index => buffer.setColor ground (.indexed (min (max index 0) 255))
  | .rgb ground red green blue =>
    buffer.setColor ground (.rgb (clamping red) (clamping green) (clamping blue))
  | .unknown .. => buffer

theorem handleSGR_introducer (ground : Ground) (rest : List Int) :
    handleSGR buffer (ground.introducer :: rest) =
      handleSGR (extendedRound buffer rest ground).1 (extendedRound buffer rest ground).2 := by
  rw [handleSGR]
  cases ground <;> rfl

theorem handleSGR_item (item : SgrItem) (rest : List Int) :
    handleSGR buffer (item.params ++ rest) = handleSGR (item.apply buffer) rest := by
  cases item with
  | alone p other =>
    rw [SgrItem.params, List.singleton_append, handleSGR]
    simp [sgrRound, other, SgrItem.apply]
  | indexed ground index => exact handleSGR_introducer buffer ground _
  | rgb ground red green blue => exact handleSGR_introducer buffer ground _
  | unknown ground mode other =>
    refine (handleSGR_introducer buffer ground _).trans ?_
    simp [extendedRound, parseExtendedColor, SgrItem.apply, other]

/-- A list of items is handled item by item, and what follows is handled as a list of its own. -/
theorem handleSGR_items (items : List SgrItem) (rest : List Int) :
    handleSGR buffer (items.flatMap SgrItem.params ++ rest) =
      handleSGR (items.foldl SgrItem.apply buffer) rest := by
  induction items generalizing buffer with
  | nil => rfl
  | cons item items ih =>
    rw [List.flatMap_cons, List.append_assoc, handleSGR_item, ih]
    rfl

theorem handleSGR_whole (items : List SgrItem) :
    handleSGR buffer (items.flatMap SgrItem.params) = items.foldl SgrItem.apply buffer := by
  have whole := handleSGR_items buffer items []
  rwa [handleSGR, List.append_nil] at whole

/-- An introducer and its mode are passed over where arguments are missing. -/
theorem handleSGR_cut (ground : Ground) :
    handleSGR buffer [ground.introducer] = buffer ∧
      handleSGR buffer [ground.introducer, 5] = buffer ∧
        ∀ components : List Int, components.length < 3 →
          handleSGR buffer (ground.introducer :: 2 :: components) =
            handleSGR buffer components := by
  simp only [handleSGR_introducer]
  refine ⟨handleSGR.eq_1 _, handleSGR.eq_1 _, fun components short => ?_⟩
  match components, short with
  | [], _ | [_], _ | [_, _], _ => rfl

end AlpineOnIOS.Terminal
