import StacksPrune.HashMap
import StacksPrune.Network
import StacksPrune.Rank
import StacksPrune.Sample
import StacksPrune.Distribution
import StacksPrune.Outbound
import StacksPrune.Selection
import StacksPrune.Inbound
import StacksPrune.Frontier
import StacksPrune.Runs
import StacksPrune.CheckDb
