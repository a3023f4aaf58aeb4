import NiosvCodesign.Firmware.LedControl
import NiosvCodesign.Firmware.ChangeReports
import NiosvCodesign.Firmware.Cadence
import NiosvCodesign.Hdl.ResetRequest
import NiosvCodesign.Hdl.Isolation
import NiosvCodesign.Hdl.ButtonPath
import NiosvCodesign.Hdl.Glitch
import NiosvCodesign.Hdl.LongRun
import NiosvCodesign.Hdl.DebounceSizing
import NiosvCodesign.Board.PinToLog
import NiosvCodesign.Firmware.Wedge
import NiosvCodesign.Firmware.EarlyToggle
import NiosvCodesign.Firmware.Transcript
import NiosvCodesign.Firmware.Alarms
import NiosvCodesign.Firmware.Mtimer
import NiosvCodesign.Firmware.OpenFiles
import NiosvCodesign.Board.PinToHost
