import Vr4300.Error
import Vr4300.Segment

/-! What the boot loader leaves behind in low memory about the console.

Each of three words is decoded by its own type. `BootInfo.decode` takes them in the order reset,
video, memory, and the first that is no word of its type decides the error. -/

namespace Vr4300

namespace Boot

/-- The region of the console. -/
inductive VideoType where
  | pal | ntsc | mpal
  deriving DecidableEq, Repr

/-- How the console was started: by its switch or by its reset button. -/
inductive ResetType where
  | cold | warm
  deriving DecidableEq, Repr

/-- The memory that is installed, as the plug in the expansion slot tells. -/
inductive PakType where
  | jumper | expansion
  deriving DecidableEq, Repr

namespace VideoType

def word : VideoType → UInt32
  | pal => 0
  | ntsc => 1
  | mpal => 2

def describe : VideoType → String
  | pal => "Pal"
  | ntsc => "Ntsc"
  | mpal => "Mpal"

def decode (w : UInt32) : Except Error VideoType :=
  if w = 0 then .ok pal
  else if w = 1 then .ok ntsc
  else if w = 2 then .ok mpal
  else .error (.invalidBootInfo w)

/-- Where the boot loader puts the word. -/
def address : UInt64 := uncached 0x0300

end VideoType

namespace ResetType

def word : ResetType → UInt32
  | cold => 0
  | warm => 1

def describe : ResetType → String
  | cold => "Cold"
  | warm => "Warm"

def decode (w : UInt32) : Except Error ResetType :=
  if w = 0 then .ok cold
  else if w = 1 then .ok warm
  else .error (.invalidBootInfo w)

/-- Where the boot loader puts the word. -/
def address : UInt64 := uncached 0x030c

end ResetType

namespace PakType

/-- The size of the memory in bytes. -/
def word : PakType → UInt32
  | jumper => 4 * 1024 * 1024
  | expansion => 8 * 1024 * 1024

def describe : PakType → String
  | jumper => "Jumper"
  | expansion => "Expansion"

def decode (w : UInt32) : Except Error PakType :=
  if w = jumper.word then .ok jumper
  else if w = expansion.word then .ok expansion
  else .error (.invalidBootInfo w)

/-- Where the boot loader puts the word. -/
def address : UInt64 := uncached 0x0318

end PakType

end Boot

structure BootInfo where
  reset : Boot.ResetType
  video : Boot.VideoType
  pak : Boot.PakType
  deriving DecidableEq, Repr

namespace BootInfo

def decode (reset video pak : UInt32) : Except Error BootInfo := do
  let reset ← Boot.ResetType.decode reset
  let video ← Boot.VideoType.decode video
  let pak ← Boot.PakType.decode pak
  return ⟨reset, video, pak⟩

def describe (b : BootInfo) : String :=
  "BootInfo \x7b reset: " ++ b.reset.describe ++ ", video: " ++ b.video.describe ++ ", pak: " ++
    b.pak.describe ++ " \x7d"

end BootInfo

end Vr4300
