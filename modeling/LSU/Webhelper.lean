import LSU.Commands
import LSU.CallConstructors

/-! The web helper's command: when system and execv ask modify_webhelper_command for it, and
what they get. An argument vector is its pointers, NULL being `none`. -/
namespace LSU.Commands
open LSU.Text

def ldPreload : Str := "LD_PRELOAD=webfix.so ".toList
end LSU.Commands
