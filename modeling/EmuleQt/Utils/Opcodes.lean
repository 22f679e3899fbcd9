import Mathlib.Data.Nat.Notation

namespace EmuleQt.Utils

def PARTSIZE : Nat := 9728000
def EMBLOCKSIZE : Nat := 184320
def MAX_EMULE_FILE_SIZE : Nat := 0x4000000000
def OLD_MAX_EMULE_FILE_SIZE : Nat := 4290048000
def CREDITFILE_VERSION : Nat := 0x12
def CREDITFILE_VERSION_29 : Nat := 0x11

def DAY2S (day : Nat) : Nat := day * 24 * 60 * 60

theorem PARTSIZE_pos : 0<PARTSIZE := by decide
theorem EMBLOCKSIZE_pos : 0<EMBLOCKSIZE := by decide

end EmuleQt.Utils
