import Openpresser.Crc
import Openpresser.MiddleOut
import Openpresser.CodeTable
import Openpresser.BitStream
import Openpresser.CodeLengths
import Openpresser.Termination
import Openpresser.Truncation
import Openpresser.Directory
import Openpresser.Options
import Openpresser.TokenRoundTrip
import Openpresser.FrequencyTable
import Openpresser.TableReader
import Openpresser.StreamEnd
import Openpresser.BlockFields
import Openpresser.SymbolSpace
import Openpresser.BurstErrors
import Openpresser.BitCalls
import Openpresser.Decoder
import Openpresser.ChainWalks
import Openpresser.Pivot
import Openpresser.TableRoundTrip
import Openpresser.Expansion
import Openpresser.Tampering
import Openpresser.Sessions
import Openpresser.BitErrors
import Openpresser.Greedy
import Openpresser.Entropy
