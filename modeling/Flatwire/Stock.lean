import Flatwire.Stock.Compose
import Flatwire.Stock.Log
import Flatwire.Stock.Lower
import Flatwire.Stock.Paint
import Flatwire.Stock.Settings
import Flatwire.Stock.Usage

/-! The libraries that the program is run with. Nothing is proved of them; each follows the one it stands for as far as
names, arguments and small configuration files go. -/

namespace Flatwire.Stock

/-- The word with its first letter in upper case; digits may stand before the letter. -/
def title : Bytes → Bytes
  | [] => []
  | b :: bs =>
    if 48 ≤ b && b ≤ 57 then b :: title bs
    else if 97 ≤ b && b ≤ 122 then (b - 32) :: bs
    else b :: bs

@[reducible] def libraries : Libraries where
  compose := compose
  lower := lower
  title := title
  paint := paint
  readFlags flags args := (Flags.parse flags true args).mapError FlagError.message
  dispatch := dispatch
  readConfig := Settings.read
  logLine := Log.line

end Flatwire.Stock
