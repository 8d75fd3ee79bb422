import Flowscope.Http2.Parser

/-!
# A full buffer is no error of a frame

`handleFrame_sat`: whatever a frame holds, what it is refused for is not that the buffer is full. The
errors of each function are followed through those that it calls.
-/

namespace Flowscope.Http2

open Http2Error

/-- The errors that a frame can be refused with. -/
def Http2Error.OfFrame (e : Http2Error) : Prop := e ≠ .bufferOverflow

attribute [simp] Http2Error.OfFrame

/-- A string fails with an error of a frame. -/
theorem Huffman.decode_sat (input : Bytes) :
    (Huffman.decode input).Sat (fun _ => True) OfFrame := by
  have hbit : ∀ s bit, (Huffman.decodeBit s bit).Sat (fun _ => True) OfFrame := by
    intro s bit
    unfold Huffman.decodeBit
    dsimp only
    split_ifs
    · simp
    · split
      · split_ifs <;> simp
      · trivial
  have hbyt : ∀ s byte, (Huffman.decodeByte s byte).Sat (fun _ => True) OfFrame :=
    fun s byte => Except.foldlM_sat (fun s bit _ => hbit s _) [7, 6, 5, 4, 3, 2, 1, 0] trivial
  have hby := Except.foldlM_sat (fun s byte _ => hbyt s byte) input (s := ⟨[], 0, 0⟩) trivial
  refine (hby.imp fun s _ => ?_).bind
  split_ifs <;> simp

/-- So do the groups of an integer. -/
theorem decodeGroups_sat (value shift : ℕ) (buf : Bytes) :
    (decodeGroups value shift buf).Sat (fun _ => True) OfFrame := by
  induction buf generalizing value shift with
  | nil => simp [decodeGroups]
  | cons b rest ih =>
    unfold decodeGroups
    dsimp only
    split_ifs
    · simp
    · simp
    · trivial
    · exact ih _ _

variable (buf : Bytes)

/-- An integer fails with an error of a frame. -/
theorem decodeInt_sat (k : ℕ) : (decodeInt buf k).Sat (fun _ => True) OfFrame := by
  unfold decodeInt
  cases buf with
  | nil => simp
  | cons first rest =>
    dsimp only
    split_ifs
    · trivial
    · exact decodeGroups_sat _ _ _

/-- So does a string with its length. -/
theorem decodeString_sat : (decodeString buf).Sat (fun _ => True) OfFrame := by
  unfold decodeString
  cases buf with
  | nil => simp
  | cons first rest =>
    refine ((decodeInt_sat _ 7).imp fun r _ => ?_).bind
    dsimp only
    split_ifs
    · simp
    · exact ((Huffman.decode_sat _).imp fun _ _ => trivial).bind
    · trivial

namespace HpackDecoder

variable (t : DynamicTable)

/-- An index fails with an error of a frame. -/
theorem resolve_sat (idx : ℕ) : (resolve t idx).Sat (fun _ => True) OfFrame := by
  unfold resolve
  split_ifs
  · simp
  · trivial
  · split <;> simp

/-- So does a literal. -/
theorem decodeLiteral_sat (buf : Bytes) (k : ℕ) :
    (decodeLiteral t buf k).Sat (fun _ => True) OfFrame := by
  have hnm : ∀ idx rest, (decodeName t idx rest).Sat (fun _ => True) OfFrame := by
    intro idx rest
    unfold decodeName
    split_ifs
    · exact decodeString_sat rest
    · exact ((resolve_sat t idx).imp fun _ _ => trivial).map
  refine ((decodeInt_sat buf k).imp fun r _ => ?_).bind
  refine ((hnm _ _).imp fun r _ => ?_).bind
  exact ((decodeString_sat _).imp fun _ _ => trivial).bind

/-- A field fails with an error of a frame. -/
theorem decodeField_sat (buf : Bytes) (first : UInt8) :
    (decodeField t buf first).Sat (fun _ => True) OfFrame := by
  unfold decodeField
  split_ifs
  · refine ((decodeInt_sat _ _).imp fun r _ => ?_).bind
    exact ((resolve_sat t _).imp fun _ _ => trivial).bind
  · exact ((decodeLiteral_sat t _ _).imp fun _ _ => trivial).bind
  · refine ((decodeInt_sat _ _).imp fun r _ => ?_).bind
    dsimp only
    split_ifs
    · simp
    · trivial
  · exact ((decodeLiteral_sat t _ _).imp fun _ _ => trivial).bind

/-- So does a whole block. -/
theorem decode_sat (d : HpackDecoder) (buf : Bytes) :
    (d.decode buf).2.Sat (fun _ => True) OfFrame := by
  show (decodeFrom d.table [] buf).2.Sat _ _
  fun_induction decodeFrom d.table [] buf with
  | case1 => trivial
  | case2 => simp
  | case3 t out first tail hout e hfl => exact (decodeField_sat t _ first).of_error hfl
  | case4 t out first tail hout t' f rest hfl ih => exact ih

end HpackDecoder

/-- The header of a frame fails with an error of a frame. -/
theorem peekFrameLen_sat (max : ℕ) :
    (peekFrameLen buf max).Sat (fun _ => True) OfFrame := by
  unfold peekFrameLen
  dsimp only
  split_ifs <;> simp

/-- So does the frame. -/
theorem parseFrame_sat (max : ℕ) : (parseFrame buf max).Sat (fun _ => True) OfFrame := by
  have hpd : ∀ kind flags payload,
      (stripPadding kind flags payload).Sat (fun _ => True) OfFrame := by
    intro kind flags payload
    unfold stripPadding
    split_ifs
    · split
      · simp
      · split_ifs <;> simp
    · trivial
  have hpr : ∀ kind flags payload,
      (stripPriority kind flags payload).Sat (fun _ => True) OfFrame := by
    intro kind flags payload
    unfold stripPriority
    split_ifs <;> simp
  have hpm : ∀ kind payload,
      (splitPromised kind payload).Sat (fun _ => True) OfFrame := by
    intro kind payload
    unfold splitPromised
    split_ifs <;> simp
  refine ((peekFrameLen_sat buf max).imp fun o _ => ?_).bind
  cases o with
  | none => trivial
  | some total =>
    refine ((hpd _ _ _).imp fun _ _ => ?_).bind
    refine ((hpr _ _ _).imp fun _ _ => ?_).bind
    exact ((hpm _ _).imp fun _ _ => trivial).bind

namespace Http2Parser

/-- So does the block that a frame completes. -/
theorem completeBlock_sat (p : Http2Parser) (d : FlowSide) (id : ℕ) (block : Bytes) (e : Bool) :
    (p.completeBlock d id block e).2.Sat (fun _ => True) OfFrame := by
  unfold completeBlock
  have hdc := (p.dir d).hpack.decode_sat block
  dsimp only
  cases hdd : ((p.dir d).hpack.decode block).2 with
  | error e => exact hdc.of_error hdd
  | ok fields =>
    unfold reportBlock
    split_ifs <;> simp

/-- Whatever a frame does, it fails with an error of a frame. -/
theorem handleFrame_sat (p : Http2Parser) (d : FlowSide) (f : Frame) :
    (p.handleFrame d f).2.Sat (fun _ => True) OfFrame := by
  have hbg : (p.beginBlock d f).2.Sat (fun _ => True) OfFrame := by
    unfold beginBlock
    split_ifs
    · simp
    · exact completeBlock_sat _ _ _ _ _
    · trivial
  unfold handleFrame
  split_ifs with hon
  · simp
  cases f.kind with
  | headers => exact hbg
  | pushPromise => exact hbg
  | continuation =>
    unfold continueBlock
    cases (p.dir d).partial_block with
    | none => simp
    | some block =>
      dsimp only
      split_ifs
      · simp
      · exact completeBlock_sat _ _ _ _ _
      · trivial
  | data => trivial
  | settings =>
    unfold handleSettings parseSettings
    split_ifs <;> simp
  | rstStream =>
    unfold handleRstStream
    split_ifs <;> simp
  | goAway =>
    unfold handleGoAway
    split_ifs <;> simp
  | windowUpdate => trivial
  | priority => trivial
  | ping => trivial
  | unknown _ => trivial

end Http2Parser

end Flowscope.Http2
