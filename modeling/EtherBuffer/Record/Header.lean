import EtherBuffer.Bytes.Word
import EtherBuffer.Filter.Recipients

/-! The header of a packet record and its layout as nine little-endian words. -/
namespace EtherBuffer

inductive Stage where
  /-- Committed and not looked at. -/
  | empty
  | filtered
  | sent
  deriving DecidableEq, Repr

def Stage.name : Stage → String
  | .empty => "Empty"
  | .filtered => "Filtered"
  | .sent => "Sent"

def Stage.ofName (s : String) : Stage :=
  if s = "Filtered" then .filtered else if s = "Sent" then .sent else .empty

def Stage.toWord : Stage → UInt32
  | .empty => 0
  | .filtered => 1
  | .sent => 2

/-- Only the low byte counts, and an unknown value is read as `empty`. -/
def Stage.ofWord (w : UInt32) : Stage :=
  if w &&& 0xFF = 1 then .filtered else if w &&& 0xFF = 2 then .sent else .empty

structure Header where
  length : UInt32 := 0
  timestamp : UInt32 := 0
  recipients : Recipients := .nobody
  line : UInt32 := 0
  /-- One more than the client that waits for the time of departure, zero if none does. -/
  stampId : UInt32 := 0
  stage : Stage := .empty
  tagged : Bool := false
  /-- One less than the clients that have still to collect the packet. -/
  sharers : UInt32 := 0
  checksum : UInt32 := 0
  appData : UInt32 := 0
  deriving DecidableEq, Repr

namespace Header

def size : Nat := 36

def taggedBit : UInt32 := 0x100

def stageWord (h : Header) : UInt32 :=
  h.stage.toWord ||| (if h.tagged then taggedBit else 0)

def words (h : Header) : List UInt32 :=
  [h.length, h.timestamp, h.recipients.bits, h.line, h.stampId, h.stageWord, h.sharers, h.checksum,
    h.appData]

def encode (h : Header) : List UInt8 :=
  h.words.flatMap Word.toBytes

def decode (bytes : List UInt8) : Header where
  length := Word.nth bytes 0
  timestamp := Word.nth bytes 1
  recipients := ⟨Word.nth bytes 2⟩
  line := Word.nth bytes 3
  stampId := Word.nth bytes 4
  stage := .ofWord (Word.nth bytes 5)
  tagged := Word.nth bytes 5 &&& taggedBit != 0
  sharers := Word.nth bytes 6
  checksum := Word.nth bytes 7
  appData := Word.nth bytes 8

@[simp] theorem length_encode (h : Header) : h.encode.length = size := rfl

theorem ofWord_stageWord (h : Header) : Stage.ofWord h.stageWord = h.stage := by
  unfold stageWord
  cases h.stage <;> cases h.tagged <;> decide

theorem taggedBit_stageWord (h : Header) : (h.stageWord &&& taggedBit != 0) = h.tagged := by
  unfold stageWord
  cases h.stage <;> cases h.tagged <;> decide

theorem decode_encode (h : Header) : decode h.encode = h := by
  have key (i : Nat) (w : UInt32) (hw : (h.encode.drop (4 * i)).take 4 = Word.toBytes w) :
      Word.nth h.encode i = w := by
    rw [Word.nth, hw, Word.ofBytes_toBytes]
  simp only [decode, key 0 h.length rfl, key 1 h.timestamp rfl, key 2 h.recipients.bits rfl,
    key 3 h.line rfl, key 4 h.stampId rfl, key 5 h.stageWord rfl, key 6 h.sharers rfl,
    key 7 h.checksum rfl, key 8 h.appData rfl, ofWord_stageWord, taggedBit_stageWord]

end Header

end EtherBuffer
