import CrcPP.Gf2.BitPoly
import CrcPP.PolyLaws
import CrcPP.Stream
import CrcPP.Linear
import CrcPP.Bits
import CrcPP.Serial
import CrcPP.Check
import CrcPP.Remainder
import CrcPP.Burst
import CrcPP.Mirror
import CrcPP.Narrow
import CrcPP.NarrowNetwork
import CrcPP.NarrowGood
import CrcPP.NarrowPadded
import CrcPP.Table
import CrcPP.Convergence
import CrcPP.Parity
import CrcPP.AddBit
import CrcPP.Text.Numeral
import CrcPP.Text.OStream
import CrcPP.Text.PowerSum
import CrcPP.CRCInfo
import CrcPP.PolyText
import CrcPP.Text.CArray
import CrcPP.TableText
import CrcPP.CRCFactory
import CrcPP.Tool
import CrcPP.ToolHex
import CrcPP.ToolEscape
import CrcPP.ToolCommandLine
import CrcPP.AnyWidth
import CrcPP.Superposition
import CrcPP.Detection
import CrcPP.ZeroBytes
import CrcPP.ToolFlags
import CrcPP.ToolEcho
import CrcPP.ToolReading
import CrcPP.ToolSelection
import CrcPP.ToolRun
import CrcPP.ToolNormal
import CrcPP.ToolSearch
import CrcPP.ToolVerify
